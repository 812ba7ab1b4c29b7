/- Module: IecUtils/Link/HookRule
   source: ieclink/iecsock.c
   digest: What the hooks of an application keep, every received frame and every timer keeps. -/

import IecUtils.Link.Handling
import IecUtils.Link.SendWindow

set_option autoImplicit false
set_option relaxedAutoImplicit false

namespace IecUtils.Link.HookRule

open IecUtils.Link.Frame
open IecUtils.Link.Session
open IecUtils.Link.Handling

/-- Two states of a session with the same side, window and write queue. -/
structure SameWindow (s t : Iecsock) : Prop where
  type : t.type = s.type
  k : t.k = s.k
  va : t.va = s.va
  vs : t.vs = s.vs
  writeQ : t.writeQ = s.writeQ

/-- The requirements on the hooks of an application for a property of the session
together with the application's own state. -/
structure HookInvariant {σ : Type} (hooks : Iechooks σ) (I : Iecsock × σ → Prop) : Prop where
  quiet : ∀ x, I x → ∀ t, SameWindow x.1 t → I (t, x.2)
  acknowledged : ∀ x, I x → ∀ h : Iechdr, checkNr x.1 h.nr = true →
    I ({ x.1 with va := h.nr }, x.2)
  runWriteQueue : ∀ x, I x → I (iecsockRunWriteQueue x.1, x.2)
  activation : ∀ hook ∈ hooks.activationIndication, ∀ x, I x → I (hook x)
  deactivation : ∀ hook ∈ hooks.deactivationIndication, ∀ x, I x → I (hook x)
  data : ∀ hook ∈ hooks.dataIndication, ∀ b x, I x → I (hook b x)
  wakeup : ∀ hook ∈ hooks.transmitWakeup, ∀ x : Iecsock × σ, x.1.va = x.1.vs → I x → I (hook x)

section Rule

variable {σ : Type} {hooks : Iechooks σ} {I : Iecsock × σ → Prop} {x : Iecsock × σ}

private theorem indicate_keeps {hook : Option (Iecsock × σ → Iecsock × σ)}
    (keeps : ∀ f ∈ hook, ∀ x, I x → I (f x)) (h : I x) : I (indicate hook x) := by
  cases hook with
  | none => exact h
  | some f => exact keeps f rfl x h

private theorem wakeIfAcked_keeps (rule : HookInvariant hooks I) (h : I x) :
    I (wakeIfAcked hooks x) := by
  unfold wakeIfAcked
  split
  · rename_i acked
    have stopped : I (t1TimerStop x.1, x.2) := rule.quiet x h _ ⟨rfl, rfl, rfl, rfl, rfl⟩
    cases present : hooks.transmitWakeup with
    | none => exact stopped
    | some hook => exact rule.wakeup hook present _ acked stopped
  · exact h

theorem handled_keeps (rule : HookInvariant hooks I) (h : I x) {f : Apdu} {r : Int}
    {y : Iecsock × σ} (handled : Handled hooks x f r y) : I y := by
  have quiet (t : Iecsock) (same : SameWindow x.1 t) : I (t, x.2) := rule.quiet x h t same
  have heard := quiet (heardFrame x.1) ⟨rfl, rfl, rfl, rfl, rfl⟩
  have acked (passed : checkNr x.1 f.h.nr = true) : I (ackedByIframe hooks x f.h.nr) :=
    wakeIfAcked_keeps rule (rule.acknowledged (heardFrame x.1, x.2) heard f.h passed)
  cases handled with
  | ignored type gate => exact heard
  | badNr type opened nr => exact heard
  | badNs type opened nr woken ns =>
    have before := acked nr
    rw [woken] at before
    exact rule.quiet _ before _ ⟨rfl, rfl, rfl, rfl, rfl⟩
  | @iframe m type opened nr woken ns =>
    have before := acked nr
    rw [woken] at before
    have count : I (counted m.1, m.2) := by
      rcases counted_cases m.1 with ⟨_, same⟩ | ⟨_, same⟩
      · exact rule.quiet m before _ (by rw [same]; exact ⟨rfl, rfl, rfl, rfl, rfl⟩)
      · exact rule.quiet m before _ (by rw [same]; exact ⟨rfl, rfl, rfl, rfl, rfl⟩)
    refine indicate_keeps ?_ count
    intro hook member z inv
    obtain ⟨data, present, rfl⟩ := Option.map_eq_some_iff.mp member
    exact rule.data data present _ z inv
  | sframe type nr =>
    have moved := rule.acknowledged (heardFrame x.1, x.2) heard f.h nr
    have trimmed := rule.quiet _ moved
      { iecsockRunAckwQueue (heardFrame x.1) f.h.nr with va := f.h.nr } ⟨rfl, rfl, rfl, rfl, rfl⟩
    exact wakeIfAcked_keeps rule trimmed
  | refused type no => exact heard
  | startact type func side =>
    have sent := quiet (iecsockUframeSend { heardFrame x.1 with stopdt := false } .startcon)
      ⟨rfl, rfl, rfl, rfl, rfl⟩
    exact indicate_keeps rule.activation (rule.runWriteQueue _ sent)
  | startcon type func side =>
    exact indicate_keeps rule.activation (quiet _ ⟨rfl, rfl, rfl, rfl, rfl⟩)
  | stopact type func side =>
    exact indicate_keeps rule.deactivation (quiet _ ⟨rfl, rfl, rfl, rfl, rfl⟩)
  | stopcon type func side =>
    exact indicate_keeps rule.deactivation (quiet _ ⟨rfl, rfl, rfl, rfl, rfl⟩)
  | testact type func idle => exact quiet _ ⟨rfl, rfl, rfl, rfl, rfl⟩
  | testcon type func armed => exact quiet _ ⟨rfl, rfl, rfl, rfl, rfl⟩

end Rule

end IecUtils.Link.HookRule
