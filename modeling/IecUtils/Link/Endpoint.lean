/- Module: IecUtils/Link/Endpoint
   source: ieclink/iecsock.c, with the callers iec_asdu_send of ieclink/ieclink.c and timer_send_frame of ieclink/server.c
   digest: A session together with its application, and everything one event can do to the pair. -/

import IecUtils.Foundation.Transition
import IecUtils.Link.Session
import Mathlib.Logic.Relation

set_option autoImplicit false
set_option relaxedAutoImplicit false

namespace IecUtils.Link.Endpoint

open IecUtils.Link.Frame
open IecUtils.Link.Session

/-- The payloads an application has put on `write_q` and the payloads it was
handed through `data_indication`, both in order. -/
structure AppLog where
  enqueued : List (List UInt8)
  delivered : List (List UInt8)
  deriving DecidableEq

def AppLog.empty : AppLog := ⟨[], []⟩

abbrev Station := Iecsock × AppLog

/-- The two calls by which an application drives its session. -/
inductive AppCall where
  | enqueue (asdu : Asdu)
  | runWriteQueue
  deriving DecidableEq

def AppCall.exec (x : Station) : AppCall → Station
  | .enqueue asdu =>
      ({ x.1 with writeQ := x.1.writeQ ++ [asduBuf asdu] },
        { x.2 with enqueued := x.2.enqueued ++ [asdu.bytes] })
  | .runWriteQueue => (iecsockRunWriteQueue x.1, x.2)

def execAll (calls : List AppCall) (x : Station) : Station := calls.foldl AppCall.exec x

/-- The octets `data_indication` may read: the first `data_len` of them. -/
def payload (f : Apdu) : List UInt8 := f.data.take (f.h.length - 4).toNat

/-- The calls an application makes from inside its hooks during one event. Any
application is covered, since the script may differ from event to event. -/
structure HookScript where
  wakeup : List AppCall := []
  activation : List AppCall := []
  deactivation : List AppCall := []
  data : List AppCall := []
  deriving DecidableEq

def HookScript.hooks (script : HookScript) : Iechooks AppLog where
  activationIndication := some (execAll script.activation)
  deactivationIndication := some (execAll script.deactivation)
  dataIndication := some fun buf x =>
    execAll script.data
      (x.1, { x.2 with delivered := x.2.delivered ++ [buf.data.take buf.dataLen.toNat] })
  transmitWakeup := some (execAll script.wakeup)

inductive Event where
  | app (call : AppCall)
  | recv (f : Apdu) (script : HookScript)
  | t1
  | t2
  | t3

/-- The reader hands a complete frame to `iecsock_frame_recv` and closes the
session on a non-zero result. -/
def recvFrame (script : HookScript) (x : Station) (f : Apdu) : Station :=
  let r := iecsockFrameRecv script.hooks x f
  if r.1 = 0 then r.2 else (iecsockClose r.2.1, r.2.2)

def step (x : Station) : Event → Option Station
  | .app call => if x.1.closed then none else some (call.exec x)
  | .recv f script => if x.1.closed then none else some (recvFrame script x f)
  | .t1 => if x.1.t1Timer then
      some (t1TimerRun { } ({ x.1 with t1Timer := false }, x.2)) else none
  | .t2 => if x.1.t2Timer then some (t2TimerRun { x.1 with t2Timer := false }, x.2) else none
  | .t3 => if x.1.t3Timer then some (t3TimerRun { x.1 with t3Timer := false }, x.2) else none

/-- The elementary changes behind application calls, acknowledgements sent and
timers rearmed. None of them touches what a received frame may change. -/
inductive Local : Station → Station → Prop where
  | enqueue (x : Station) (asdu : Asdu) : Local x (AppCall.exec x (.enqueue asdu))
  | transmit (x : Station) {b : IecBuf} {q : List IecBuf} (queue : x.1.writeQ = b :: q)
      (opened : ¬ x.1.gated) (room : x.1.vs ≠ (x.1.va + x.1.k) % 32767) :
      Local x (transmitBuf { x.1 with writeQ := q } b, x.2)
  | sframe (x : Station) :
      Local x ({ iecsockSframeSend x.1 with vaPeer := x.1.vr }, x.2)
  | retime (x : Station) (t1 t2 t3 : Bool) :
      Local x ({ x.1 with t1Timer := t1, t2Timer := t2, t3Timer := t3 }, x.2)

abbrev Locals := Relation.ReflTransGen Local

/-- The fields that no local change touches. -/
structure SameEnd (x y : Station) : Prop where
  type : y.1.type = x.1.type
  stopdt : y.1.stopdt = x.1.stopdt
  testfr : y.1.testfr = x.1.testfr
  w : y.1.w = x.1.w
  k : y.1.k = x.1.k
  va : y.1.va = x.1.va
  vr : y.1.vr = x.1.vr
  closed : y.1.closed = x.1.closed
  delivered : y.2.delivered = x.2.delivered

theorem SameEnd.refl (x : Station) : SameEnd x x := by
  constructor <;> rfl

theorem SameEnd.trans {x y z : Station} (first : SameEnd x y) (second : SameEnd y z) :
    SameEnd x z where
  type := second.type.trans first.type
  stopdt := second.stopdt.trans first.stopdt
  testfr := second.testfr.trans first.testfr
  w := second.w.trans first.w
  k := second.k.trans first.k
  va := second.va.trans first.va
  vr := second.vr.trans first.vr
  closed := second.closed.trans first.closed
  delivered := second.delivered.trans first.delivered

@[simp] theorem transmitBuf_eq (s : Iecsock) (b : IecBuf) :
    transmitBuf s b =
      { s with
        t1Timer := true
        output := s.output ++ [(b.stamp s.vr s.vs).wire]
        ackwQ := s.ackwQ ++ [b.stamp s.vr s.vs]
        vs := (s.vs + 1) % 32767 } := by
  unfold transmitBuf t1TimerStart t1TimerStop
  cases s.t1Timer <;> rfl

theorem Local.same {x y : Station} (h : Local x y) : SameEnd x y := by
  cases h with
  | enqueue asdu => constructor <;> rfl
  | transmit queue opened room => constructor <;> simp
  | sframe => constructor <;> rfl
  | retime t1 t2 t3 => constructor <;> rfl

theorem Locals.same {x y : Station} (h : Locals x y) : SameEnd x y := by
  induction h with
  | refl => exact SameEnd.refl x
  | tail _ last ih => exact ih.trans last.same

theorem writeLoop_locals (q : List IecBuf) (x : Station) (queue : x.1.writeQ = q)
    (opened : ¬ x.1.gated) : Locals x (writeLoop q x.1, x.2) := by
  induction q generalizing x with
  | nil => exact .refl
  | cons b q ih =>
    unfold writeLoop
    split
    · rename_i room
      have first := Local.transmit x queue opened room
      have rest := ih (transmitBuf { x.1 with writeQ := q } b, x.2) (by simp)
        (by simpa [Iecsock.gated] using opened)
      exact Relation.ReflTransGen.head first rest
    · exact .refl

theorem runWriteQueue_locals (x : Station) : Locals x (iecsockRunWriteQueue x.1, x.2) := by
  unfold iecsockRunWriteQueue
  split
  · exact .refl
  · exact writeLoop_locals _ x rfl ‹_›

theorem exec_locals (x : Station) (call : AppCall) : Locals x (call.exec x) := by
  cases call with
  | enqueue asdu => exact .single (.enqueue x asdu)
  | runWriteQueue => exact runWriteQueue_locals x

theorem execAll_locals (calls : List AppCall) (x : Station) : Locals x (execAll calls x) := by
  induction calls generalizing x with
  | nil => exact .refl
  | cons call calls ih => exact (exec_locals x call).trans (ih (call.exec x))

def heard (x : Station) : Station := (t3TimerStart (t3TimerStop x.1), x.2)

def acknowledge (x : Station) (nr : Nat) : Station := ({ x.1 with va := nr }, x.2)

def acknowledgeTrim (x : Station) (nr : Nat) : Station :=
  ({ iecsockRunAckwQueue x.1 nr with va := nr }, x.2)

/-- The next information frame in sequence: count it and hand it over. -/
def accept (x : Station) (f : Apdu) : Station :=
  ({ x.1 with vr := (x.1.vr + 1) % 32767 },
    { x.2 with delivered := x.2.delivered ++ [payload f] })

/-- What an accepted control frame does before the application is told. -/
inductive Control (s : Iecsock) : UframeFunc → Iecsock → Prop where
  | startact : s.type = .slave →
      Control s .startact (iecsockUframeSend { s with stopdt := false } .startcon)
  | startcon : s.type = .master → Control s .startcon { t1TimerStop s with stopdt := false }
  | stopact : s.type = .slave →
      Control s .stopact (iecsockUframeSend { s with stopdt := true } .stopcon)
  | stopcon : s.type = .master → Control s .stopcon { s with stopdt := true }
  | testact : Control s .testact (iecsockUframeSend s .testcon)
  | testcon : s.testfr = true → Control s .testcon { t1TimerStop s with testfr := false }

/-- Everything `iecsock_frame_recv` can do with one frame, with its result. -/
inductive Received (x : Station) (f : Apdu) : Int → Station → Prop where
  | ignored : frameType f.h = .i → x.1.gated → Received x f 0 (heard x)
  | badNr : frameType f.h ≠ .u → checkNr x.1 f.h.nr = false → Received x f (-1) (heard x)
  | badNs {y : Station} : frameType f.h = .i → checkNr x.1 f.h.nr = true →
      Locals (acknowledge (heard x) f.h.nr) y → f.h.ns ≠ x.1.vr → Received x f (-1) y
  | iframe {y z : Station} : frameType f.h = .i → ¬ x.1.gated → checkNr x.1 f.h.nr = true →
      Locals (acknowledge (heard x) f.h.nr) y → f.h.ns = x.1.vr →
      Locals (accept y f) z → Received x f 0 z
  | sframe {y : Station} : frameType f.h = .s → checkNr x.1 f.h.nr = true →
      Locals (acknowledgeTrim (heard x) f.h.nr) y → Received x f 0 y
  | badControl : frameType f.h = .u → Received x f (-1) (heard x)
  | control {s : Iecsock} {y : Station} : frameType f.h = .u →
      Control (heard x).1 (uframeFunc f.h) s → Locals (s, x.2) y → Received x f 0 y

theorem wakeup_locals (script : HookScript) (x : Station) :
    Locals x (wakeIfAcked script.hooks x) := by
  unfold wakeIfAcked
  split
  · have stopped : Local x (t1TimerStop x.1, x.2) := Local.retime x false _ _
    exact .head stopped (execAll_locals _ _)
  · exact .refl

/-- Counting the frame, the acknowledgement it may trigger and the hand-over to
the application do not depend on each other's order. -/
theorem data_locals (script : HookScript) (x : Station) (f : Apdu) :
    let s := { x.1 with vr := (x.1.vr + 1) % 32767 }
    let s := if seqDist s.vr s.vaPeer = s.w then
      { iecsockSframeSend s with vaPeer := s.vr } else s
    Locals (accept x f) (indicate
      (script.hooks.dataIndication.map fun hook => hook ⟨f.h.length - 4, f.h, f.data⟩) (s, x.2)) := by
  intro s t
  have acked : Locals (accept x f) (t, (accept x f).2) := by
    by_cases reached : seqDist s.vr s.vaPeer = s.w
    · have sent := Local.sframe (accept x f)
      simp only [t, if_pos reached]
      exact .single sent
    · simp only [t, if_neg reached]
      exact .refl
  exact acked.trans (execAll_locals script.data _)

theorem iframe_received (script : HookScript) (x : Station) (f : Apdu)
    (type : frameType f.h = .i) (opened : ¬ x.1.gated) :
    Received x f (iecsockIframeRecv script.hooks (heard x) f).1
      (iecsockIframeRecv script.hooks (heard x) f).2 := by
  have sameNr : checkNr (heard x).1 f.h.nr = checkNr x.1 f.h.nr := rfl
  unfold iecsockIframeRecv
  cases nr : checkNr x.1 f.h.nr with
  | false =>
    simp only [sameNr, nr, Bool.not_false, if_true]
    exact .badNr (by simp [type]) nr
  | true =>
    simp only [sameNr, nr, Bool.not_true, Bool.false_eq_true, if_false]
    have woken := wakeup_locals script (acknowledge (heard x) f.h.nr)
    change Locals _ (wakeIfAcked script.hooks ({ (heard x).1 with va := f.h.nr }, (heard x).2))
      at woken
    generalize wakeIfAcked script.hooks ({ (heard x).1 with va := f.h.nr }, (heard x).2) = y
      at woken ⊢
    have timed : Local y (t2TimerStart (t2TimerStop y.1), y.2) :=
      Local.retime y y.1.t1Timer true y.1.t3Timer
    have before := woken.tail timed
    have same : y.1.vr = x.1.vr := woken.same.vr
    cases ns : checkNs (t2TimerStart (t2TimerStop y.1)) f.h.ns with
    | false =>
      simp only [Bool.not_false, if_true]
      refine .badNs type nr before ?_
      intro equal
      have accepted := (checkNs_eq (t2TimerStart (t2TimerStop y.1)) f.h.ns).mpr
        (equal.trans same.symm)
      simp [accepted] at ns
    | true =>
      simp only [Bool.not_true, Bool.false_eq_true, if_false]
      have inOrder := (checkNs_eq _ _).mp ns
      exact .iframe type opened nr before (inOrder.trans same)
        (data_locals script (t2TimerStart (t2TimerStop y.1), y.2) f)

theorem sframe_received (script : HookScript) (x : Station) (f : Apdu)
    (type : frameType f.h = .s) :
    Received x f (iecsockSframeRecv script.hooks (heard x) f).1
      (iecsockSframeRecv script.hooks (heard x) f).2 := by
  have sameNr : checkNr (heard x).1 f.h.nr = checkNr x.1 f.h.nr := rfl
  unfold iecsockSframeRecv
  cases nr : checkNr x.1 f.h.nr with
  | false =>
    simp only [sameNr, nr, Bool.not_false, if_true]
    exact .badNr (by simp [type]) nr
  | true =>
    simp only [sameNr, nr, Bool.not_true, Bool.false_eq_true, if_false]
    exact .sframe type nr (wakeup_locals script (acknowledgeTrim (heard x) f.h.nr))

theorem uframe_received (script : HookScript) (x : Station) (f : Apdu)
    (type : frameType f.h = .u) :
    Received x f (iecsockUframeRecv script.hooks (heard x) f).1
      (iecsockUframeRecv script.hooks (heard x) f).2 := by
  have control {func : UframeFunc} {s : Iecsock} {y : Station} (is : uframeFunc f.h = func)
      (does : Control (heard x).1 func s) (next : Locals (s, x.2) y) : Received x f 0 y :=
    .control type (is ▸ does) next
  unfold iecsockUframeRecv
  cases func : uframeFunc f.h with
  | startact =>
    simp only
    split_ifs with side
    · exact .badControl type
    · refine control func (.startact (by simpa using side)) ?_
      exact (runWriteQueue_locals (_, x.2)).trans (execAll_locals _ _)
  | startcon =>
    simp only
    split_ifs with side
    · exact .badControl type
    · exact control func (.startcon (by simpa using side)) (execAll_locals _ _)
  | stopact =>
    simp only
    split_ifs with side
    · exact .badControl type
    · exact control func (.stopact (by simpa using side)) (execAll_locals _ _)
  | stopcon =>
    simp only
    split_ifs with side
    · exact .badControl type
    · exact control func (.stopcon (by simpa using side)) (execAll_locals _ _)
  | testact =>
    refine control func .testact ?_
    simp only
    split_ifs
    · exact .single (Local.retime (iecsockUframeSend (heard x).1 .testcon, x.2) _ _ false)
    · exact .refl
  | testcon =>
    simp only
    split_ifs with armed
    · exact .badControl type
    · exact control func (.testcon (by simpa using armed)) .refl

theorem frame_received (script : HookScript) (x : Station) (f : Apdu) :
    Received x f (iecsockFrameRecv script.hooks x f).1
      (iecsockFrameRecv script.hooks x f).2 := by
  unfold iecsockFrameRecv
  cases type : frameType f.h with
  | i =>
    simp only
    split_ifs with gate
    · exact .ignored type gate
    · exact iframe_received script x f type gate
  | s => exact sframe_received script x f type
  | u => exact uframe_received script x f type

/-- One elementary change of an endpoint, whichever callback makes it. The
states between such changes include those in which hooks and the write loop
find the session in the middle of a handler. -/
inductive Instant : Station → Station → Prop where
  | here {x y : Station} : Local x y → Instant x y
  | acknowledge (x : Station) (f : Apdu) : checkNr x.1 f.h.nr = true →
      Instant x (acknowledge x f.h.nr)
  | acknowledgeTrim (x : Station) (f : Apdu) : checkNr x.1 f.h.nr = true →
      Instant x (acknowledgeTrim x f.h.nr)
  | accept (x : Station) (f : Apdu) : Instant x (accept x f)
  | control (x : Station) {func : UframeFunc} {s : Iecsock} :
      Control x.1 func s → Instant x (s, x.2)
  | test (x : Station) : Instant x (t3TimerRun x.1, x.2)
  | close (x : Station) : Instant x (iecsockClose x.1, x.2)

abbrev Instants := Relation.ReflTransGen Instant

theorem Locals.instants {x y : Station} (h : Locals x y) : Instants x y := by
  induction h with
  | refl => exact .refl
  | tail _ last ih => exact ih.tail (.here last)

theorem heard_instants (x : Station) : Instants x (heard x) :=
  .single (.here (.retime x x.1.t1Timer x.1.t2Timer true))

theorem received_instants {x y : Station} {f : Apdu} {r : Int} (h : Received x f r y) :
    Instants x y := by
  have start := heard_instants x
  cases h with
  | ignored type gate => exact start
  | badNr type nr => exact start
  | badNs type nr before ns =>
    exact (start.tail (.acknowledge (heard x) f nr)).trans before.instants
  | @iframe m _ type opened nr before ns after =>
    have acked := (start.tail (.acknowledge (heard x) f nr)).trans before.instants
    exact (acked.tail (.accept m f)).trans after.instants
  | sframe type nr before =>
    exact (start.tail (.acknowledgeTrim (heard x) f nr)).trans before.instants
  | badControl type => exact start
  | control type does after =>
    exact (start.tail (.control (heard x) does)).trans after.instants

theorem step_instants {x y : Station} {e : Event} (h : step x e = some y) : Instants x y := by
  cases e with
  | app call =>
    simp only [step] at h
    split at h
    · cases h
    · obtain rfl := Option.some.inj h
      exact (exec_locals x call).instants
  | recv f script =>
    simp only [step] at h
    split at h
    · cases h
    · obtain rfl := Option.some.inj h
      have handled := received_instants (frame_received script x f)
      unfold recvFrame
      simp only
      split
      · exact handled
      · exact handled.tail (.close _)
  | t1 =>
    simp only [step] at h
    split at h
    · obtain rfl := Option.some.inj h
      have fired := Instant.here (.retime x false x.1.t2Timer x.1.t3Timer)
      exact .head fired (.single (.close _))
    · cases h
  | t2 =>
    simp only [step] at h
    split at h
    · obtain rfl := Option.some.inj h
      have fired := Instant.here (.retime x x.1.t1Timer false x.1.t3Timer)
      exact .head fired (.single (.here (.sframe _)))
    · cases h
  | t3 =>
    simp only [step] at h
    split at h
    · obtain rfl := Option.some.inj h
      have fired := Instant.here (.retime x x.1.t1Timer x.1.t2Timer false)
      exact .head fired (.single (.test _))
    · cases h

theorem Instants.output {x y : Station} (h : Instants x y) :
    ∃ more, y.1.output = x.1.output ++ more := by
  induction h with
  | refl => exact ⟨[], (List.append_nil _).symm⟩
  | @tail m z _ last ih =>
    obtain ⟨before, grown⟩ := ih
    have next : ∃ more, z.1.output = m.1.output ++ more := by
      cases last with
      | here l =>
        cases l with
        | enqueue asdu => exact ⟨[], (List.append_nil _).symm⟩
        | @transmit b _ _ _ _ => exact ⟨[(b.stamp m.1.vr m.1.vs).wire], by simp⟩
        | sframe => exact ⟨_, rfl⟩
        | retime t1 t2 t3 => exact ⟨[], (List.append_nil _).symm⟩
      | acknowledge f passed => exact ⟨[], (List.append_nil _).symm⟩
      | acknowledgeTrim f passed => exact ⟨[], (List.append_nil _).symm⟩
      | accept f => exact ⟨[], (List.append_nil _).symm⟩
      | control does => cases does <;> first | exact ⟨_, rfl⟩ | exact ⟨[], (List.append_nil _).symm⟩
      | test => exact ⟨_, rfl⟩
      | close => exact ⟨[], (List.append_nil _).symm⟩
    obtain ⟨more, next⟩ := next
    exact ⟨before ++ more, by rw [next, grown, List.append_assoc]⟩

end IecUtils.Link.Endpoint
