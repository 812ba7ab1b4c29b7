/- Module: IecUtils/Link/LinkTest
   source: t3_timer_run and the TESTACT and TESTCON cases of iecsock_uframe_recv in ieclink/iecsock.c
   digest: Test frames between two sessions: a confirmation is due as long as no session tests twice at a time. -/

import IecUtils.Link.Duplex
import IecUtils.Link.Handling

set_option autoImplicit false
set_option relaxedAutoImplicit false

namespace IecUtils.Link.LinkTest

open IecUtils.Foundation.Transition
open IecUtils.Link.Frame
open IecUtils.Link.Session
open IecUtils.Link.Endpoint
open IecUtils.Link.Handling
open IecUtils.Link.Duplex

def controls (func : UframeFunc) (out : List Apdu) : Nat :=
  out.countP fun f => frameType f.h = .u ∧ uframeFunc f.h = func

/-- Every request of `A` and every confirmation for it that is under way. The flag is
a single bit. -/
def Tested (A B : Station) : Prop :=
  controls .testact A.1.output + controls .testcon B.1.output = A.1.testfr.toNat

section Channel

variable {func : UframeFunc}

@[simp] theorem controls_append (out more : List Apdu) :
    controls func (out ++ more) = controls func out + controls func more := by
  simp [controls]

theorem controls_cons (f : Apdu) (out : List Apdu) :
    controls func (f :: out) = controls func [f] + controls func out :=
  controls_append [f] out

@[simp] theorem controls_uframe (sent : UframeFunc) :
    controls func [⟨uframeHdr sent, []⟩] = if sent = func then 1 else 0 := by
  simp [controls, List.countP_cons]

theorem controls_single {f : Apdu} (control : frameType f.h = .u) :
    controls func [f] = if uframeFunc f.h = func then 1 else 0 := by
  simp [controls, List.countP_cons, control]

theorem controls_other {f : Apdu} (other : frameType f.h ≠ .u) : controls func [f] = 0 := by
  simp [controls, other]

@[simp] theorem controls_sframe (vr : Nat) : controls func [⟨sframeHdr vr, []⟩] = 0 :=
  controls_other (by simp)

private theorem controls_adds {s t : Iecsock} (added : Adds (fun f => frameType f.h ≠ .u) s t) :
    controls func t.output = controls func s.output := by
  obtain ⟨more, grown, other⟩ := added
  have none : controls func more = 0 := by
    rw [controls, List.countP_eq_zero]
    intro f member
    simp [other f member]
  rw [grown, controls_append, none, Nat.add_zero]

end Channel

section Outcome

variable {x y : Station}

/-- What an event adds to the channel: the requests and the confirmations. -/
def asks : Event → Nat
  | .t3 => 1
  | _ => 0

def answers : Event → Nat
  | .recv f _ => controls .testact [f]
  | _ => 0

/-- The flag an event leaves. -/
def flagged (x : Station) : Event → Bool
  | .t3 => true
  | .recv f _ => if controls .testcon [f] = 1 then false else x.1.testfr
  | _ => x.1.testfr

structure Effect (x : Station) (e : Event) (y : Station) : Prop where
  acts : controls .testact y.1.output = controls .testact x.1.output + asks e
  cons : controls .testcon y.1.output = controls .testcon x.1.output + answers e
  flag : y.1.testfr = flagged x e

/-- A change that has nothing to do with tests. -/
structure Quiet (s t : Iecsock) : Prop where
  prepared : (∀ b ∈ s.writeQ, frameType b.h = .i) → ∀ b ∈ t.writeQ, frameType b.h = .i
  acts : controls .testact t.output = controls .testact s.output
  cons : controls .testcon t.output = controls .testcon s.output
  flag : t.testfr = s.testfr

private theorem Quiet.trans {s t u : Iecsock} (first : Quiet s t) (second : Quiet t u) :
    Quiet s u :=
  ⟨second.prepared ∘ first.prepared, second.acts.trans first.acts, second.cons.trans first.cons,
    second.flag.trans first.flag⟩

private theorem quiet_sends {s t : Iecsock} (prepared : ∀ b ∈ s.writeQ, frameType b.h = .i)
    (sent : Sends s t) : Quiet s t := by
  obtain ⟨ready, _, more, grown, info⟩ := sent.info prepared
  have other : Adds (fun f => frameType f.h ≠ .u) s t := by
    refine ⟨more, grown, ?_⟩
    intro f member control
    exact absurd ((info f member).symm.trans control) (by decide)
  refine ⟨fun _ => ready, controls_adds other, controls_adds other, ?_⟩
  refine sent.keeps (I := fun m => m.testfr = s.testfr) ?_ rfl
  intro m u same last
  cases last with
  | enqueue asdu => exact same
  | transmit queue opened room =>
    rw [transmitBuf_eq]
    exact same

private theorem Quiet.supervised {s t : Iecsock} (h : Quiet s t) : Quiet s (supervised t) := by
  obtain ⟨_, same⟩ := supervised_touches t
  rw [same]
  exact ⟨h.prepared, h.acts, h.cons, h.flag⟩

private theorem quiet_counted (s : Iecsock) : Quiet s (counted s) := by
  rcases counted_cases s with ⟨_, same⟩ | ⟨_, same⟩
  · rw [same]
    refine ⟨id, ?_, ?_, rfl⟩
    · rw [controls_append, controls_sframe, Nat.add_zero]
    · rw [controls_append, controls_sframe, Nat.add_zero]
  · rw [same]
    exact ⟨id, rfl, rfl, rfl⟩

private theorem quiet_uframe (s : Iecsock) (stopdt : Bool) (sent : UframeFunc)
    (act : sent ≠ .testact) (con : sent ≠ .testcon) :
    Quiet s (iecsockUframeSend { heardFrame s with stopdt := stopdt } sent) := by
  refine ⟨id, ?_, ?_, rfl⟩
  · simp [iecsockUframeSend, heardFrame, act]
  · simp [iecsockUframeSend, heardFrame, con]

/-- A frame that is neither a request nor a confirmation has the effect of its quiet
handling. -/
private theorem Quiet.effect {f : Apdu} {script : HookScript} (h : Quiet x.1 y.1)
    (act : controls .testact [f] = 0) (con : controls .testcon [f] = 0) :
    Effect x (.recv f script) y := by
  refine ⟨h.acts, ?_, ?_⟩
  · rw [h.cons, answers, act, Nat.add_zero]
  · rw [h.flag, flagged, con]
    rfl

private theorem outcome_effect {e : Event} (prepared : ∀ b ∈ x.1.writeQ, frameType b.h = .i)
    (outcome : Outcome x e y) (opened : y.1.closed = false) : Effect x e y := by
  have heard : Quiet x.1 (heardFrame x.1) := ⟨id, rfl, rfl, rfl⟩
  have other {f : Apdu} {func : UframeFunc} (control : frameType f.h = .u)
      (differs : uframeFunc f.h ≠ func) : controls func [f] = 0 := by
    rw [controls_single control, if_neg differs]
  cases outcome with
  | app sent _ =>
    have quiet := quiet_sends prepared sent
    exact ⟨quiet.acts, quiet.cons, quiet.flag⟩
  | ignored type _ =>
    exact heard.effect (controls_other (by rw [type]; decide)) (controls_other (by rw [type]; decide))
  | refused => cases opened
  | badNs _ _ => cases opened
  | @iframe f _ m _ type _ _ before after _ =>
    have acked : Quiet x.1 (supervised { heardFrame x.1 with va := f.h.nr }) :=
      Quiet.supervised ⟨id, rfl, rfl, rfl⟩
    have taken := (acked.trans (quiet_sends (acked.prepared prepared) before)).trans (quiet_counted m)
    have all := taken.trans (quiet_sends (taken.prepared prepared) after)
    exact all.effect (controls_other (by rw [type]; decide)) (controls_other (by rw [type]; decide))
  | @sframe f _ _ type _ sent _ =>
    have acked : Quiet x.1
        (supervised { iecsockRunAckwQueue (heardFrame x.1) f.h.nr with va := f.h.nr }) :=
      Quiet.supervised ⟨id, rfl, rfl, rfl⟩
    have all := acked.trans (quiet_sends (acked.prepared prepared) sent)
    exact all.effect (controls_other (by rw [type]; decide)) (controls_other (by rw [type]; decide))
  | startact type func _ sent _ =>
    have quiet := quiet_uframe x.1 false .startcon (by decide) (by decide)
    have all := quiet.trans (quiet_sends (quiet.prepared prepared) sent)
    exact all.effect (other type (by rw [func]; decide)) (other type (by rw [func]; decide))
  | startcon type func _ sent _ =>
    have quiet : Quiet x.1 { heardFrame x.1 with t1Timer := false, stopdt := false } :=
      ⟨id, rfl, rfl, rfl⟩
    have all := quiet.trans (quiet_sends (quiet.prepared prepared) sent)
    exact all.effect (other type (by rw [func]; decide)) (other type (by rw [func]; decide))
  | stopact type func _ sent _ =>
    have quiet := quiet_uframe x.1 true .stopcon (by decide) (by decide)
    have all := quiet.trans (quiet_sends (quiet.prepared prepared) sent)
    exact all.effect (other type (by rw [func]; decide)) (other type (by rw [func]; decide))
  | stopcon type func _ sent _ =>
    have quiet : Quiet x.1 { heardFrame x.1 with stopdt := true } := ⟨id, rfl, rfl, rfl⟩
    have all := quiet.trans (quiet_sends (quiet.prepared prepared) sent)
    exact all.effect (other type (by rw [func]; decide)) (other type (by rw [func]; decide))
  | testact type func _ =>
    refine ⟨?_, ?_, ?_⟩
    · simp [iecsockUframeSend, asks]
    · simp [iecsockUframeSend, answers, controls_single type, func]
    · simp [iecsockUframeSend, flagged, controls_single type, func]
  | testcon type func _ =>
    refine ⟨rfl, ?_, ?_⟩
    · simp [heardFrame, answers, controls_single type, func]
    · simp [flagged, controls_single type, func]
  | t1 => cases opened
  | t2 =>
    refine ⟨?_, ?_, rfl⟩
    · simp [t2TimerRun, iecsockSframeSend, asks]
    · simp [t2TimerRun, iecsockSframeSend, answers]
  | t3 =>
    refine ⟨?_, ?_, rfl⟩
    · simp [t3TimerRun, iecsockUframeSend, t1TimerStart, asks]
    · simp [t3TimerRun, iecsockUframeSend, t1TimerStart, answers]

end Outcome

section Exchange

variable {side : IecType} {A B A' : Station}

private theorem proper_info (h : Proper side A) : ∀ b ∈ A.1.writeQ, frameType b.h = .i := by
  intro b member
  obtain ⟨asdu, rfl⟩ := h.prepared b member
  exact frameType_asduBuf asdu

private theorem act_tested {act : Act} (proper : Proper side A) (there : Tested A B)
    (back : Tested B A) (happens : step A act.event = some A') (opened : A'.1.closed = false)
    (once : act = .t3 → A.1.testfr = false) : Tested A' B ∧ Tested B A' := by
  have effect := outcome_effect (proper_info proper) (step_outcome happens) opened
  unfold Tested at there back ⊢
  rw [effect.acts, effect.cons, effect.flag]
  cases act with
  | t3 =>
    rw [once rfl, Bool.toNat_false] at there
    simp only [Act.event, asks, answers, flagged, Bool.toNat_true]
    omega
  | _ => exact ⟨there, back⟩

private theorem deliver_tested {f : Apdu} {rest : List Apdu} {script : HookScript}
    (proper : Proper side A) (there : Tested A B) (back : Tested B A)
    (head : B.1.output = f :: rest) (opened : (recvFrame script A f).1.closed = false) :
    Tested (recvFrame script A f) ({ B.1 with output := rest }, B.2) ∧
      Tested ({ B.1 with output := rest }, B.2) (recvFrame script A f) := by
  have effect := outcome_effect (proper_info proper) (recvFrame_outcome script A f) opened
  have bit := Bool.toNat_le A.1.testfr
  unfold Tested at there back ⊢
  rw [head, controls_cons] at there back
  rw [effect.acts, effect.cons, effect.flag]
  simp only [asks, answers, flagged]
  refine ⟨?_, by omega⟩
  split
  · rw [Bool.toNat_false]
    omega
  · omega

end Exchange

/-- The idle timer does not fire on a session that waits for a confirmation. -/
def Once (d : Pair) : DuplexEvent → Prop
  | .act side .t3 => (d.station side).1.testfr = false
  | _ => True

instance (d : Pair) (e : DuplexEvent) : Decidable (Once d e) := by
  unfold Once
  split <;> infer_instance

structure Examined (d : Pair) : Prop where
  master : Proper .master d.master
  slave : Proper .slave d.slave
  there : Tested d.master d.slave
  back : Tested d.slave d.master

private theorem examined_step {d d' : Pair} {e : DuplexEvent} (h : d.opened → Examined d)
    (once : Once d e) (happens : duplexStep d e = some d') (still : d'.opened) : Examined d' := by
  unfold duplexStep at happens
  split at happens
  · rename_i opened
    have before := h opened
    cases e with
    | act side act =>
      obtain ⟨x, stepped, rfl⟩ := Option.map_eq_some_iff.mp happens
      cases side with
      | master =>
        have single : act = .t3 → d.master.1.testfr = false := by
          rintro rfl
          exact once
        obtain ⟨there, back⟩ :=
          act_tested before.master before.there before.back stepped still.1 single
        exact ⟨before.master.instants (step_instants stepped), before.slave, there, back⟩
      | slave =>
        have single : act = .t3 → d.slave.1.testfr = false := by
          rintro rfl
          exact once
        obtain ⟨back, there⟩ :=
          act_tested before.slave before.back before.there stepped still.2 single
        exact ⟨before.master, before.slave.instants (step_instants stepped), there, back⟩
    | deliver side script =>
      have taken (x : Station) (f : Apdu) (up : x.1.closed = false) :
          Instants x (recvFrame script x f) := by
        apply step_instants (e := .recv f script)
        simp [step, up]
      cases side with
      | master =>
        cases head : d.slave.1.output with
        | nil => simp [Pair.station, Side.other, head] at happens
        | cons f rest =>
          simp only [Pair.station, Side.other, head] at happens
          obtain rfl := Option.some.inj happens
          obtain ⟨there, back⟩ :=
            deliver_tested before.master before.there before.back head still.1
          exact ⟨before.master.instants (taken _ f opened.1), before.slave.popped head, there, back⟩
      | slave =>
        cases head : d.master.1.output with
        | nil => simp [Pair.station, Side.other, head] at happens
        | cons f rest =>
          simp only [Pair.station, Side.other, head] at happens
          obtain rfl := Option.some.inj happens
          obtain ⟨back, there⟩ :=
            deliver_tested before.slave before.back before.there head still.2
          exact ⟨before.master.popped head, before.slave.instants (taken _ f opened.2), there, back⟩
  · cases happens

private theorem examined_start (opt : IecsockOptions) : Examined (duplexStart opt) := by
  have linked := linked_start opt
  refine ⟨linked.master, linked.slave, ?_, rfl⟩
  simp [Tested, duplexStart, connectWritecb, iecsockUframeSend, iecsockSetOptions, Iecsock.fresh,
    t1TimerStart, controls]

/-- As long as no session tests again before its test is confirmed, every confirmation
that arrives is awaited and taken. -/
theorem once_confirmed {opt : IecsockOptions} {es : List DuplexEvent} {d : Pair}
    (once : Guarded duplexStep Once (duplexStart opt) es)
    (reached : run duplexStep (duplexStart opt) es = some d) (opened : d.opened) (side : Side)
    (script : HookScript) {f : Apdu} {rest : List Apdu}
    (head : (d.station side.other).1.output = f :: rest) (control : frameType f.h = .u)
    (confirms : uframeFunc f.h = .testcon) :
    (d.station side).1.testfr = true ∧
      (iecsockFrameRecv script.hooks (d.station side) f).1 = 0 := by
  have examined := guarded_invariant (I := fun d => d.opened → Examined d)
    (fun _ _ _ inv once happens still => examined_step inv once happens still)
    (fun _ => examined_start opt) once reached opened
  have due (A B : Station) (tested : Tested A B) (first : B.1.output = f :: rest) :
      A.1.testfr = true := by
    unfold Tested at tested
    rw [first, controls_cons, controls_single control, if_pos confirms] at tested
    cases flag : A.1.testfr with
    | true => rfl
    | false =>
      rw [flag, Bool.toNat_false] at tested
      omega
  have awaited : (d.station side).1.testfr = true := by
    cases side with
    | master => exact due _ _ examined.there head
    | slave => exact due _ _ examined.back head
  refine ⟨awaited, ?_⟩
  simp [iecsockFrameRecv, iecsockUframeRecv, control, confirms, t3TimerStart, t3TimerStop, awaited]

def oneTest : List DuplexEvent :=
  [.deliver .slave {}, .deliver .master {}, .act .master .t3, .deliver .slave {}]

theorem once_confirmed_oneTest : ∃ d, run duplexStep (duplexStart ⟨8, 12⟩) oneTest = some d ∧
    d.slave.1.output = [⟨uframeHdr .testcon, []⟩] ∧ d.master.1.testfr = true := by
  refine ⟨_, rfl, rfl, ?_⟩
  exact (@once_confirmed ⟨8, 12⟩ oneTest _ (by decide) rfl (by decide) .master {}
    ⟨uframeHdr .testcon, []⟩ [] rfl (by decide) (by decide)).1

/-- Data of the slave restarts the idle timer of the master before the confirmation is
there, and the timer fires again. -/
def twoTests : List DuplexEvent :=
  [.deliver .slave {}, .deliver .master {}, .act .master .t3,
    .act .slave (.call (.enqueue reading)), .act .slave (.call .runWriteQueue),
    .deliver .master {}, .act .master .t3, .deliver .slave {}, .deliver .slave {},
    .deliver .master {}]

theorem twoTests_rejected : ∃ d, run duplexStep (duplexStart ⟨8, 12⟩) twoTests = some d ∧
    d.opened ∧ d.master.1.stopdt = false ∧ d.slave.1.stopdt = false ∧
    d.slave.1.output = [⟨uframeHdr .testcon, []⟩] ∧ d.master.1.testfr = false ∧
    (iecsockFrameRecv ({} : HookScript).hooks d.master ⟨uframeHdr .testcon, []⟩).1 = -1 :=
  ⟨_, rfl, by decide, rfl, rfl, rfl, rfl, rfl⟩

end IecUtils.Link.LinkTest
