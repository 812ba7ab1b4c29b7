/- Module: IecUtils/Link/Confirm
   source: iec_kick_callback and stdin_read of ieclink/ieclink.c
   digest: A confirmation covers everything read so far exactly when the callback found the list empty. -/

import IecUtils.Link.Ieclink

set_option autoImplicit false
set_option relaxedAutoImplicit false

namespace IecUtils.Link.Confirm

open IecUtils.Foundation.SequenceNumber
open IecUtils.Foundation.Transition
open IecUtils.Link.Frame
open IecUtils.Link.Session
open IecUtils.Link.Endpoint
open IecUtils.Link.SendWindow
open IecUtils.Link.HookRule
open IecUtils.Link.Ieclink

/-- At the moment of the confirmation nothing is waiting anywhere: every unit read
on this connection, or carried over to it, has been sent and acknowledged. -/
def Settled (c : Confirmation) : Prop :=
  c.asdulist = [] ∧ c.session.writeQ = [] ∧ c.session.va = c.session.vs ∧
    c.sent.Perm (c.carried ++ c.accepted)

/-- A session of ieclink between two calls: a master with the default window whose
units leave the write queue at once. -/
structure Drained (s : Iecsock) : Prop where
  master : s.type = .master
  window : Window 12 s
  empty : s.writeQ = []

section Send

variable {x : Process}

theorem Drained.same {s t : Iecsock} (h : Drained s) (same : SameWindow s t) :
    Drained t where
  master := same.type.trans h.master
  window := h.window.congr same.k same.va same.vs
  empty := same.writeQ.trans h.empty

theorem iecAsduSend_drained (h : Drained x.1) (room : iecsockCanQueue x.1 ≠ 0)
    (asdu : Asdu) :
    Drained (iecAsduSend x asdu).1 ∧ (iecAsduSend x asdu).1.va = x.1.va ∧
      wrapDist 32767 (iecAsduSend x asdu).1.vs x.1.va = wrapDist 32767 x.1.vs x.1.va + 1 := by
  have opened (q : List IecBuf) : ¬ Iecsock.gated { x.1 with writeQ := q } := by
    intro gated
    exact absurd (h.master.symm.trans gated.1) (by decide)
  rw [h.window.canQueue (by decide)] at room
  have notFull : x.1.vs ≠ (x.1.va + x.1.k) % 32767 := by
    intro full
    have count := (h.window.full_iff (by decide)).mp full
    omega
  obtain ⟨next, below⟩ := h.window.transmit (by decide) notFull
  have sent : (iecAsduSend x asdu).1 = transmitBuf { x.1 with writeQ := [] } (asduBuf asdu) := by
    simp only [iecAsduSend, iecsockRunWriteQueue, h.empty, List.nil_append, if_neg (opened _),
      writeLoop, if_pos notFull]
  rw [sent, transmitBuf_eq]
  refine ⟨⟨h.master, ⟨h.window.option, h.window.va_le, ?_, ?_⟩, rfl⟩, rfl, next⟩
  · exact Nat.mod_lt _ (by decide)
  · simp only
    omega

/-- The loop of the callback sends from the head of the list until the list ends or
the window is full. -/
theorem kickLoop_drained (list : List Asdu) (h : Drained x.1) :
    ∃ sent rest y, kickLoop list x = (rest, y) ∧ list = sent ++ rest ∧ Drained y.1 ∧
      y.1.va = x.1.va ∧ wrapDist 32767 y.1.vs x.1.va = wrapDist 32767 x.1.vs x.1.va + sent.length ∧
      y.2 = { x.2 with sent := x.2.sent ++ sent } ∧ (rest ≠ [] → iecsockCanQueue y.1 = 0) := by
  induction list generalizing x with
  | nil => exact ⟨[], [], x, rfl, rfl, h, rfl, rfl, by simp, fun more => absurd rfl more⟩
  | cons asdu list ih =>
    unfold kickLoop
    split
    · rename_i room
      obtain ⟨drained, va, next⟩ := iecAsduSend_drained h room asdu
      obtain ⟨sent, rest, y, loop, split, drained', va', count, program, full⟩ := ih drained
      refine ⟨asdu :: sent, rest, y, loop, by rw [split, List.cons_append], drained',
        va'.trans va, ?_, ?_, full⟩
      · rw [va] at count
        rw [count, next, List.length_cons]
        omega
      · rw [program]
        simp [iecAsduSend]
    · rename_i full
      exact ⟨[], asdu :: list, x, rfl, rfl, h, rfl, rfl, by simp, fun _ => not_not.mp full⟩

end Send

def Prompt (p : Program) : Prop := ∀ c ∈ p.confirmations, c.waiting = []

/-- What the process knows about the units it has read. As long as every
confirmation was prompt the list is intact and nothing is lost. -/
structure Ledger (p : Program) : Prop where
  linked : Prompt p → p.linked = true
  balance : Prompt p → (p.sent ++ p.asdulist).Perm (p.carried ++ p.accepted)
  idle : ∀ c ∈ p.confirmations, c.asdulist = [] ∧ c.session.writeQ = []
  acked : ∀ c ∈ p.confirmations, c.waiting = [] ↔ c.session.va = c.session.vs
  sent : Prompt p → ∀ c ∈ p.confirmations, c.sent.Perm (c.carried ++ c.accepted)

def Kept (x : Process) : Prop := Drained x.1 ∧ Ledger x.2

section Kept

variable {x : Process}

private theorem Ledger.eventAdd {p : Program} (h : Ledger p) : Ledger (eventAdd p) := by
  obtain ⟨user, crashed, same⟩ := eventAdd_eq p
  rw [same]
  exact { h with }

private theorem iecKickCallback_kept (h : Kept x) (acked : x.1.va = x.1.vs) :
    Kept (iecKickCallback x) := by
  obtain ⟨drained, ledger⟩ := h
  obtain ⟨sent, rest, y, loop, split, drained', va, count, program, _⟩ :=
    kickLoop_drained x.2.asdulist drained
  have va_lt : x.1.va < 32767 := acked ▸ drained.window.vs_lt
  have zero : wrapDist 32767 x.1.vs x.1.va = 0 :=
    (wrapDist_eq_zero_iff drained.window.vs_lt va_lt).mpr acked
  have balance (prompt : Prompt x.2) :
      (x.2.sent ++ sent ++ rest).Perm (x.2.carried ++ x.2.accepted) := by
    rw [List.append_assoc, ← split]
    exact ledger.balance prompt
  unfold iecKickCallback
  simp only [loop, program]
  by_cases emptied : rest = []
  · subst emptied
    simp only [List.append_nil] at split balance
    simp only [true_and]
    cases ended : x.2.endmsg with
    | false =>
      simp only [if_true]
      refine ⟨drained', Ledger.eventAdd ?_⟩
      refine { ledger with linked := fun _ => rfl, balance := fun prompt => ?_ }
      simpa using balance prompt
    | true =>
      simp only [Bool.true_eq_false, if_false, if_true]
      -- the window holds exactly the units of this call, at most twelve of them
      have unacked : x.2.asdulist = [] ↔ y.1.va = y.1.vs := by
        rw [zero, ← split, Nat.zero_add] at count
        rw [← List.length_eq_zero_iff, ← count, va]
        exact wrapDist_eq_zero_iff drained'.window.vs_lt va_lt
      generalize entry : eventAdd _ = after
      obtain ⟨user, crashed, same⟩ := eventAdd_eq _
      rw [same] at entry
      subst entry
      have both {P : Confirmation → Prop} (old : ∀ c ∈ x.2.confirmations, P c)
          (new : P ⟨x.2.asdulist, y.1, [], x.2.carried, x.2.accepted, x.2.sent ++ sent⟩) :
          ∀ c ∈ x.2.confirmations ++
            [⟨x.2.asdulist, y.1, [], x.2.carried, x.2.accepted, x.2.sent ++ sent⟩], P c := by
        intro c member
        rcases List.mem_append.mp member with before | now
        · exact old c before
        · obtain rfl := List.mem_singleton.mp now
          exact new
      have prompt (all : ∀ c ∈ x.2.confirmations ++
          [⟨x.2.asdulist, y.1, [], x.2.carried, x.2.accepted, x.2.sent ++ sent⟩], c.waiting = []) :
          Prompt x.2 ∧ x.2.asdulist = [] :=
        ⟨fun c member => all c (List.mem_append_left _ member),
          all _ (List.mem_append_right _ (List.mem_singleton.mpr rfl))⟩
      refine ⟨drained', ?_, ?_, both ledger.idle ⟨rfl, drained'.empty⟩, both ledger.acked unacked, ?_⟩
      · intro all
        obtain ⟨before, none⟩ := prompt all
        simp only [none, ne_eq, not_true_eq_false, if_false]
        exact ledger.linked before
      · intro all
        simpa using balance (prompt all).1
      · intro all
        exact both (ledger.sent (prompt all).1) (balance (prompt all).1)
  · simp only [emptied, false_and, if_false]
    exact ⟨drained', { ledger with balance := balance }⟩

private theorem Kept.program {p : Program} (h : Kept x) (confirmations : p.confirmations = x.2.confirmations)
    (asdulist : p.asdulist = x.2.asdulist) (linked : p.linked = x.2.linked)
    (carried : p.carried = x.2.carried) (accepted : p.accepted = x.2.accepted)
    (sent : p.sent = x.2.sent) : Kept (x.1, p) := by
  obtain ⟨drained, ledger⟩ := h
  refine ⟨drained, ?_, ?_, ?_, ?_, ?_⟩
  all_goals simp only [Prompt, confirmations, asdulist, linked, carried, accepted, sent]
  · exact ledger.linked
  · exact ledger.balance
  · exact ledger.idle
  · exact ledger.acked
  · exact ledger.sent

private theorem defaultHooks_kept : HookInvariant defaultHooks Kept where
  quiet x h t same := ⟨h.1.same same, h.2⟩
  acknowledged x h f passed := by
    refine ⟨⟨h.1.master, ?_, h.1.empty⟩, h.2⟩
    exact h.1.window.acknowledge ⟨f, []⟩ passed
  runWriteQueue x h := by
    have same : iecsockRunWriteQueue x.1 = x.1 := by
      unfold iecsockRunWriteQueue
      rw [h.1.empty]
      split_ifs <;> rfl
    rw [same]
    exact h
  activation hook member x h := by
    obtain rfl := Option.some.inj member
    obtain ⟨user, crashed, same⟩ := eventAdd_eq { x.2 with user := .idle }
    simp only [activationHook, same]
    exact h.program rfl rfl rfl rfl rfl rfl
  deactivation hook member := by cases member
  data hook member b x h := by
    obtain rfl := Option.some.inj member
    exact h.program rfl rfl rfl rfl rfl rfl
  wakeup hook member x acked h := by
    obtain rfl := Option.some.inj member
    exact iecKickCallback_kept h acked

private theorem acceptAsdu_kept (h : Kept x) (asdu : Asdu) : Kept (acceptAsdu x asdu) := by
  obtain ⟨drained, ledger⟩ := h
  unfold acceptAsdu
  simp only
  split
  · rename_i room
    refine ⟨(iecAsduSend_drained drained room asdu).1, ?_⟩
    refine { ledger with balance := fun prompt => ?_ }
    have balance := ledger.balance prompt
    simp only [iecAsduSend]
    rw [List.append_assoc, ← List.append_assoc x.2.carried]
    refine (List.Perm.append_left x.2.sent List.perm_append_comm).trans ?_
    rw [← List.append_assoc]
    exact balance.append_right [asdu]
  · refine ⟨drained, ?_⟩
    refine { ledger with balance := fun prompt => ?_ }
    have linked := ledger.linked prompt
    have balance := ledger.balance prompt
    simp only [listAppend, linked, if_true]
    rw [← List.append_assoc, ← List.append_assoc]
    exact balance.append_right [asdu]

private theorem stdin_kept : LineInvariant Kept where
  buffers _ _ _ _ h := h.program rfl rfl rfl rfl rfl rfl
  accept _ asdu h := acceptAsdu_kept h asdu

private theorem closeLink_kept (h : Kept x) : Kept (closeLink x) := by
  have closed : Drained (iecsockClose x.1) :=
    ⟨h.1.master, h.1.window.congr rfl rfl rfl, rfl⟩
  exact Kept.program (x := (iecsockClose x.1, x.2)) ⟨closed, h.2⟩ rfl rfl rfl rfl rfl rfl

private theorem connectionLost_kept (h : Kept x) : Kept (connectionLost x) :=
  closeLink_kept (h.program rfl rfl rfl rfl rfl rfl)

private theorem connectLink_kept {p : Program} (ledger : Ledger p) : Kept (connectLink p) := by
  have drained : Drained (connectWritecb (Iecsock.fresh .master)) :=
    ⟨rfl, Window.start ⟨rfl, rfl, rfl, rfl⟩ rfl, rfl⟩
  refine ⟨drained, { ledger with balance := fun _ => ?_ }⟩
  simp [connectLink]

theorem linkStep_kept {y : Process} {e : LinkEvent} (h : Kept x)
    (happens : linkStep x e = some y) : Kept y := by
  cases linkStep_outcome happens with
  | connect closed => exact connectLink_kept h.2
  | @stdin chunks opened waiting =>
    exact stdinRead_keeps stdin_kept chunks (h.program rfl rfl rfl rfl rfl rfl)
  | accepted opened handled => exact handled_keeps defaultHooks_kept h handled
  | rejected opened bad handled => exact closeLink_kept (handled_keeps defaultHooks_kept h handled)
  | badHeader opened => exact closeLink_kept h
  | t1 opened => exact connectionLost_kept ⟨h.1.same ⟨rfl, rfl, rfl, rfl, rfl⟩, h.2⟩
  | t2 opened => exact ⟨h.1.same ⟨rfl, rfl, rfl, rfl, rfl⟩, h.2⟩
  | t3 opened => exact ⟨h.1.same ⟨rfl, rfl, rfl, rfl, rfl⟩, h.2⟩
  | error opened => exact connectionLost_kept h

theorem linkStart_kept : Kept linkStart := by
  apply connectLink_kept
  refine ⟨fun _ => rfl, fun _ => List.Perm.refl _, ?_, ?_, fun _ => ?_⟩
  all_goals
    intro c member
    cases member

theorem reachable_kept {es : List LinkEvent} (reached : run linkStep linkStart es = some x) : Kept x :=
  run_invariant (fun _ _ _ inv happens => linkStep_kept inv happens) linkStart_kept reached

end Kept

/-- In every run of the process: all its confirmations are sound exactly when the
callback found the overflow list empty each time it wrote one. -/
theorem confirmations_settled_iff {es : List LinkEvent} {x : Process}
    (reached : run linkStep linkStart es = some x) :
    (∀ c ∈ x.2.confirmations, Settled c) ↔ ∀ c ∈ x.2.confirmations, c.waiting = [] := by
  obtain ⟨_, ledger⟩ := reachable_kept reached
  constructor
  · intro settled c member
    exact (ledger.acked c member).mpr (settled c member).2.2.1
  · intro prompt c member
    obtain ⟨asdulist, writeQ⟩ := ledger.idle c member
    exact ⟨asdulist, writeQ, (ledger.acked c member).mp (prompt c member),
      ledger.sent prompt c member⟩

section Runs

set_option maxRecDepth 2000

/-- `count` copies of the line `64`, then the end-of-message line. -/
def message (count : Nat) : List UInt8 := (List.replicate count [54, 52, 10]).flatten ++ [62, 10]

/-- One unit: the confirmation comes after its acknowledgement. -/
theorem confirmations_settled_single :
    ∃ x, run linkStep linkStart
        [.recv ⟨uframeHdr .startcon, []⟩, .stdin [message 1], .recv ⟨sframeHdr 1, []⟩] = some x ∧
      x.2.confirmations.length = 1 ∧ ∀ c ∈ x.2.confirmations, Settled c := by
  have reached : run linkStep linkStart
      [.recv ⟨uframeHdr .startcon, []⟩, .stdin [message 1], .recv ⟨sframeHdr 1, []⟩] = some _ := rfl
  refine ⟨_, reached, rfl, (confirmations_settled_iff reached).mpr ?_⟩
  intro c member
  obtain rfl := List.mem_singleton.mp member
  rfl

/-- Thirteen units in one message: the thirteenth waits for the window, the
acknowledgement of the first twelve sends it, and it is confirmed unacknowledged. -/
theorem confirmation_early :
    ∃ x, run linkStep linkStart
        [.recv ⟨uframeHdr .startcon, []⟩, .stdin [message 13], .recv ⟨sframeHdr 12, []⟩] = some x ∧
      ¬ ∀ c ∈ x.2.confirmations, Settled c := by
  have reached : run linkStep linkStart
      [.recv ⟨uframeHdr .startcon, []⟩, .stdin [message 13], .recv ⟨sframeHdr 12, []⟩] =
        some _ := rfl
  refine ⟨_, reached, ?_⟩
  intro settled
  have acked := (settled _ (List.mem_singleton.mpr rfl)).2.2.1
  exact absurd acked (by decide)

end Runs

end IecUtils.Link.Confirm
