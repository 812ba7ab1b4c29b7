/- Module: IecUtils/Link/Reception
   source: iec_kick_callback of ieclink/ieclink.c, called from ieclink/iecsock.c
   digest: What a received frame does to the program: it wakes iec_kick_callback when it acknowledges everything, else nothing but the output and the event on standard input changes. -/

import IecUtils.Link.Confirm

set_option autoImplicit false
set_option relaxedAutoImplicit false

namespace IecUtils.Link.Reception

open IecUtils.Foundation.SequenceNumber
open IecUtils.Link.Frame
open IecUtils.Link.Session
open IecUtils.Link.Handling
open IecUtils.Link.HookRule
open IecUtils.Link.Ieclink
open IecUtils.Link.Confirm

/-- The frame passes the check of its acknowledgement number, which leaves nothing
unacknowledged. -/
def Acknowledges (s : Iecsock) (f : Apdu) : Prop :=
  frameType f.h ≠ .u ∧ checkNr s f.h.nr = true ∧ f.h.nr = s.vs

instance (s : Iecsock) (f : Apdu) : Decidable (Acknowledges s f) :=
  inferInstanceAs (Decidable (_ ∧ _))

/-- `iec_kick_callback` passes `sent` on and keeps `rest`. Only on two of its three exits
`asdulistlast` ends where the list does. -/
structure Kicked (x : Process) (sent rest : List Asdu) (y : Process) : Prop where
  split : x.2.asdulist = sent ++ rest
  few : sent.length ≤ 12
  full : rest ≠ [] → sent.length = 12
  drained : Drained y.1
  acked : y.1.va = y.1.vs ↔ sent = []
  asdulist : y.2.asdulist = rest
  passed : y.2.sent = x.2.sent ++ sent
  carried : y.2.carried = x.2.carried
  accepted : y.2.accepted = x.2.accepted
  curlistsize : y.2.curlistsize = x.2.curlistsize
  rbuf : y.2.rbuf = x.2.rbuf
  asdubuf : y.2.asdubuf = x.2.asdubuf
  endmsg : y.2.endmsg = if rest = [] then false else x.2.endmsg
  linked : y.2.linked =
    if rest = [] then !x.2.endmsg || decide (x.2.asdulist = []) && x.2.linked else x.2.linked

theorem iecKickCallback_kicked {x : Process} (h : Drained x.1) (acked : x.1.va = x.1.vs) :
    ∃ sent rest, Kicked x sent rest (iecKickCallback x) := by
  obtain ⟨sent, rest, y, loop, split, drained, va, count, program, full⟩ :=
    kickLoop_drained x.2.asdulist h
  have va_lt : x.1.va < 32767 := acked ▸ h.window.vs_lt
  have zero : wrapDist 32767 x.1.vs x.1.va = 0 :=
    (wrapDist_eq_zero_iff h.window.vs_lt va_lt).mpr acked
  rw [zero, Nat.zero_add] at count
  have bound := drained.window.bound
  rw [va, count] at bound
  have settled : y.1.va = y.1.vs ↔ sent = [] := by
    rw [← List.length_eq_zero_iff, ← count, va]
    exact (wrapDist_eq_zero_iff drained.window.vs_lt va_lt).symm
  have filled (more : rest ≠ []) : sent.length = 12 := by
    have none := full more
    rw [drained.window.canQueue (by decide), va, count] at none
    omega
  refine ⟨sent, rest, ?_⟩
  unfold iecKickCallback
  simp only [loop, program]
  by_cases emptied : rest = []
  · subst emptied
    simp only [true_and]
    cases ended : x.2.endmsg with
    | false =>
      simp only [if_true]
      generalize entry : eventAdd _ = after
      obtain ⟨user, crashed, same⟩ := eventAdd_eq _
      rw [same] at entry
      subst entry
      exact ⟨split, bound, filled, drained, settled, rfl, rfl, rfl, rfl, rfl, rfl, rfl, rfl,
        by simp [ended]⟩
    | true =>
      simp only [Bool.true_eq_false, if_false, if_true]
      generalize entry : eventAdd _ = after
      obtain ⟨user, crashed, same⟩ := eventAdd_eq _
      rw [same] at entry
      subst entry
      refine ⟨split, bound, filled, drained, settled, rfl, rfl, rfl, rfl, rfl, rfl, rfl, rfl, ?_⟩
      by_cases empty : x.2.asdulist = []
      · simp [ended, empty]
      · simp [ended, empty]
  · simp only [emptied, false_and, if_false]
    exact ⟨split, bound, filled, drained, settled, rfl, rfl, rfl, rfl, rfl, rfl, rfl, by simp [emptied],
      by simp [emptied]⟩

/-- What a frame does to the process, apart from the output. -/
inductive Received (x : Process) (f : Apdu) (y : Process) : Prop where
  | woken {t : Iecsock} {sent rest : List Asdu} {z : Process} {stdout : List Line} :
      Acknowledges x.1 f → Kicked (t, x.2) sent rest z → SameWindow z.1 y.1 →
      y.2 = { z.2 with stdout := stdout } → Received x f y
  | moved {stdout : List Line} : ¬ Acknowledges x.1 f → f.h.nr ≠ x.1.vs → y.1.va = f.h.nr →
      y.1.vs = x.1.vs → y.2 = { x.2 with stdout := stdout } → Received x f y
  | other {user : UserEvent} {crashed : Bool} {stdout : List Line} : ¬ Acknowledges x.1 f →
      SameWindow x.1 y.1 → y.2 = { x.2 with stdout := stdout, user := user, crashed := crashed } →
      Received x f y

section Received

variable {x y : Process} {f : Apdu}

private theorem wake_received {t : Iecsock} (h : Drained x.1) (bearing : frameType f.h ≠ .u)
    (passed : checkNr x.1 f.h.nr = true) (same : SameWindow { x.1 with va := f.h.nr } t) :
    Received x f (wakeIfAcked defaultHooks (t, x.2)) := by
  have moved : Drained { x.1 with va := f.h.nr } :=
    ⟨h.master, h.window.acknowledge f passed, h.empty⟩
  have drained : Drained t := moved.same same
  unfold wakeIfAcked
  split
  · rename_i acked
    have all : f.h.nr = x.1.vs := same.va.symm.trans (acked.trans same.vs)
    have stopped : Drained (t1TimerStop t) := drained.same ⟨rfl, rfl, rfl, rfl, rfl⟩
    obtain ⟨sent, rest, kicked⟩ := iecKickCallback_kicked (x := (t1TimerStop t, x.2)) stopped acked
    exact .woken ⟨bearing, passed, all⟩ kicked ⟨rfl, rfl, rfl, rfl, rfl⟩ rfl
  · rename_i behind
    have some : f.h.nr ≠ x.1.vs := by
      intro all
      exact behind (same.va.trans (all.trans same.vs.symm))
    exact .moved (fun acks => some acks.2.2) some same.va same.vs rfl

private theorem Received.after {z : Process} (h : Received x f y) (same : SameWindow y.1 z.1)
    {stdout : List Line} (program : z.2 = { y.2 with stdout := stdout }) : Received x f z := by
  cases h with
  | woken acks kicked before was =>
    refine .woken acks kicked ?_ (by rw [program, was])
    exact ⟨same.type.trans before.type, same.k.trans before.k, same.va.trans before.va,
      same.vs.trans before.vs, same.writeQ.trans before.writeQ⟩
  | moved not behind va vs was =>
    exact .moved not behind (same.va.trans va) (same.vs.trans vs) (by rw [program, was])
  | other not before was =>
    refine .other not ?_ (by rw [program, was])
    exact ⟨same.type.trans before.type, same.k.trans before.k, same.va.trans before.va,
      same.vs.trans before.vs, same.writeQ.trans before.writeQ⟩

theorem handled_received {r : Int} (h : Drained x.1) (handled : Handled defaultHooks x f r y) :
    Received x f y := by
  have control (type : frameType f.h = .u) : ¬ Acknowledges x.1 f := fun acks => acks.1 type
  have bearing {type : FrameType} (is : frameType f.h = type) (other : type ≠ .u) :
      frameType f.h ≠ .u := by
    rw [is]
    exact other
  have same : SameWindow x.1 (heardFrame x.1) := ⟨rfl, rfl, rfl, rfl, rfl⟩
  cases handled with
  | ignored type gate => exact absurd (h.master.symm.trans gate.1) (by decide)
  | badNr type opened nr =>
    have not : ¬ Acknowledges x.1 f := by
      intro acks
      rw [acks.2.1] at nr
      cases nr
    exact .other not same rfl
  | @badNs m type opened nr acked ns =>
    have woken := wake_received (t := { heardFrame x.1 with va := f.h.nr }) h
      (bearing type (by decide)) nr ⟨rfl, rfl, rfl, rfl, rfl⟩
    change Received x f (ackedByIframe defaultHooks x f.h.nr) at woken
    rw [acked] at woken
    exact woken.after ⟨rfl, rfl, rfl, rfl, rfl⟩ rfl
  | @iframe m type opened nr acked ns =>
    have woken := wake_received (t := { heardFrame x.1 with va := f.h.nr }) h
      (bearing type (by decide)) nr ⟨rfl, rfl, rfl, rfl, rfl⟩
    change Received x f (ackedByIframe defaultHooks x f.h.nr) at woken
    rw [acked] at woken
    obtain ⟨_, _, touches⟩ := counted_touches m.1
    refine woken.after (z := dataReceivedHook _ (counted m.1, m.2)) ?_ rfl
    rw [dataReceivedHook, touches]
    exact ⟨rfl, rfl, rfl, rfl, rfl⟩
  | sframe type nr =>
    exact wake_received h (bearing type (by decide)) nr ⟨rfl, rfl, rfl, rfl, rfl⟩
  | refused type no => exact .other (control type) same rfl
  | startact type func side => exact absurd (h.master.symm.trans side) (by decide)
  | startcon type func side =>
    obtain ⟨user, crashed, added⟩ := eventAdd_eq { x.2 with user := .idle }
    have program : (activationHook ({ heardFrame x.1 with t1Timer := false, stopdt := false },
        x.2)).2 = { x.2 with
          stdout := x.2.stdout ++ [.activated]
          user := user
          crashed := crashed } := by
      simp only [activationHook, added]
    exact .other (control type) ⟨rfl, rfl, rfl, rfl, rfl⟩ program
  | stopact type func side => exact absurd (h.master.symm.trans side) (by decide)
  | stopcon type func side => exact .other (control type) ⟨rfl, rfl, rfl, rfl, rfl⟩ rfl
  | testact type func quiet => exact .other (control type) ⟨rfl, rfl, rfl, rfl, rfl⟩ rfl
  | testcon type func armed => exact .other (control type) ⟨rfl, rfl, rfl, rfl, rfl⟩ rfl

end Received

end IecUtils.Link.Reception
