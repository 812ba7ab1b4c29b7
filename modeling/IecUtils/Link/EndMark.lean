/- Module: IecUtils/Link/EndMark
   source: endmsg in stdin_read and iec_kick_callback of ieclink/ieclink.c
   digest: A message that has ended has a unit to wait for, unless its end mark is read while nothing is under way. -/

import IecUtils.Link.Stdin

set_option autoImplicit false
set_option relaxedAutoImplicit false

namespace IecUtils.Link.EndMark

open IecUtils.Foundation.SequenceNumber
open IecUtils.Foundation.Transition
open IecUtils.Link.Frame
open IecUtils.Link.Ieclink
open IecUtils.Link.Confirm
open IecUtils.Link.Reception
open IecUtils.Link.Stdin

/-- The acknowledgement that will confirm the message is still to come. -/
def Awaiting (x : Process) : Prop :=
  x.1.closed = false → x.2.endmsg = true → x.1.va ≠ x.1.vs

/-- An end mark that is read while everything sent is acknowledged follows a unit in the
same call, and no connection is made for a message that has ended. -/
def Answerable (x : Process) : LinkEvent → Prop
  | .stdin chunks => x.1.va = x.1.vs → (turnsOf x (.stdin chunks)).any Batch.marked = true →
      (turnsOf x (.stdin chunks)).flatMap Batch.units ≠ []
  | .connect => x.2.endmsg = false
  | _ => True

instance (x : Process) (e : LinkEvent) : Decidable (Answerable x e) :=
  match e with
  | .stdin _ => inferInstanceAs (Decidable (_ → _ → _ ≠ _))
  | .connect => inferInstanceAs (Decidable (_ = false))
  | .recv _ | .badHeader | .t1 | .t2 | .t3 | .error => isTrue trivial

section Step

variable {x y : Process}

private theorem Awaiting.received {f : Apdu} (h : x.2.endmsg = true → x.1.va ≠ x.1.vs)
    (r : Received x f y) (ended : y.2.endmsg = true) : y.1.va ≠ y.1.vs := by
  cases r with
  | @woken t sent rest z _ acks kicked window same =>
    rw [same] at ended
    have kept : z.2.endmsg = true := ended
    rw [kicked.endmsg] at kept
    -- the callback leaves the mark only with a full window
    have more : rest ≠ [] := by
      intro emptied
      rw [if_pos emptied] at kept
      cases kept
    intro acked
    rw [window.va, window.vs] at acked
    have full := kicked.full more
    rw [kicked.acked.mp acked] at full
    cases full
  | moved _ behind va vs _ =>
    rw [va, vs]
    exact behind
  | other _ window same =>
    rw [same] at ended
    rw [window.va, window.vs]
    exact h ended

private theorem Awaiting.fed {us passed listed : List Asdu} (drained : Drained x.1)
    (fed : Fed x us passed listed y) (sends : x.1.va = x.1.vs → us ≠ []) : y.1.va ≠ y.1.vs := by
  intro acked
  have low : x.1.va < 32767 := by
    rw [← fed.va, acked]
    exact fed.drained.window.vs_lt
  have zero : wrapDist 32767 y.1.vs x.1.va = 0 :=
    (wrapDist_eq_zero_iff fed.drained.window.vs_lt low).mpr (fed.va.symm.trans acked)
  have vs := fed.vs
  have count := fed.count
  have room := drained.window.canQueue (by decide)
  have before : wrapDist 32767 x.1.vs x.1.va = 0 := by omega
  have same := (wrapDist_eq_zero_iff drained.window.vs_lt low).mp before
  have some := List.length_pos_iff.mpr (sends same)
  rw [room, before] at count
  omega

private theorem awaiting_step (x : Process) (e : LinkEvent) (y : Process)
    (h : Clear x ∧ Awaiting x) (answerable : Answerable x e) (happens : linkStep x e = some y) :
    Clear y ∧ Awaiting y := by
  obtain ⟨clear, awaiting⟩ := h
  refine ⟨linkStep_clear clear happens, ?_⟩
  intro still ended
  cases linkStep_outcome happens with
  | connect _ =>
    have none : x.2.endmsg = false := answerable
    cases none.symm.trans ended
  | @stdin chunks opened _ =>
    obtain ⟨passed, listed, fed⟩ := stdin_fed clear chunks
    refine Awaiting.fed clear.1.1 fed ?_
    intro acked
    rw [stdin_endmsg clear chunks, Bool.or_eq_true] at ended
    rcases ended with old | mark
    · exact absurd acked (awaiting opened old)
    · exact answerable acked mark
  | accepted opened handled =>
    exact Awaiting.received (awaiting opened) (handled_received clear.1.1 handled) ended
  | rejected _ _ _ => cases still
  | badHeader _ => cases still
  | t1 _ => cases still
  | t2 opened => exact awaiting opened ended
  | t3 opened => exact awaiting opened ended
  | error _ => cases still

end Step

/-- In every run in which every end mark is answerable: while a connection stands and a
message has ended, something sent is not yet acknowledged. -/
theorem answerable_awaiting {es : List LinkEvent} {x : Process}
    (answerable : Guarded linkStep Answerable linkStart es)
    (reached : run linkStep linkStart es = some x) (opened : x.1.closed = false)
    (ended : x.2.endmsg = true) : x.1.va ≠ x.1.vs :=
  (guarded_invariant awaiting_step ⟨linkStart_clear, nofun⟩ answerable reached).2 opened ended

theorem answerable_awaiting_single :
    ∃ x, run linkStep linkStart [.recv ⟨uframeHdr .startcon, []⟩, .stdin [message 1]] = some x ∧
      x.2.endmsg = true ∧ x.1.va ≠ x.1.vs := by
  have reached : run linkStep linkStart
      [.recv ⟨uframeHdr .startcon, []⟩, .stdin [message 1]] = some _ := rfl
  exact ⟨_, reached, rfl, answerable_awaiting (by decide) reached rfl rfl⟩

/-- A message without units: its end mark waits for an acknowledgement that never comes. -/
theorem empty_message_stuck :
    ∃ x, run linkStep linkStart [.recv ⟨uframeHdr .startcon, []⟩, .stdin [message 0]] = some x ∧
      x.1.closed = false ∧ x.2.user ≠ .unset ∧ x.2.endmsg = true ∧ x.1.va = x.1.vs :=
  ⟨_, rfl, rfl, by decide, rfl, rfl⟩

end IecUtils.Link.EndMark
