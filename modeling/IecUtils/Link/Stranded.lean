/- Module: IecUtils/Link/Stranded
   source: iecsock_run_write_queue, iecsock_iframe_recv, iecsock_sframe_recv and iecsock_set_hooks of ieclink/iecsock.c, timer_send_frame of ieclink/server.c
   digest: When a buffer waits in write_q behind an open window, and when transmit_wakeup is told that everything is sent. -/

import IecUtils.Link.Handling
import IecUtils.Link.SendWindow

set_option autoImplicit false
set_option relaxedAutoImplicit false

namespace IecUtils.Link.Stranded

open IecUtils.Foundation.Transition
open IecUtils.Link.Frame
open IecUtils.Link.Session
open IecUtils.Link.SendWindow
open IecUtils.Link.Handling

/-- An application appends buffers to `write_q` and then runs the queue, as
`iec_asdu_send` and `timer_send_frame` do with one buffer each. -/
def sendBatch (s : Iecsock) (batch : List Asdu) : Iecsock :=
  iecsockRunWriteQueue { s with writeQ := s.writeQ ++ batch.map asduBuf }

def sendBatches (batches : List (List Asdu)) (s : Iecsock) : Iecsock := batches.foldl sendBatch s

/-- What the application sends from inside its hooks during one event. -/
structure HookBatches where
  wakeup : List (List Asdu) := []
  activation : List (List Asdu) := []
  deactivation : List (List Asdu) := []
  data : List (List Asdu) := []

/-- A session with the states in which `transmit_wakeup` found it so far. -/
abbrev Woken := Iecsock × List Iecsock

def HookBatches.hooks (batches : HookBatches) : Iechooks (List Iecsock) where
  activationIndication := some fun x => (sendBatches batches.activation x.1, x.2)
  deactivationIndication := some fun x => (sendBatches batches.deactivation x.1, x.2)
  dataIndication := some fun _ x => (sendBatches batches.data x.1, x.2)
  transmitWakeup := some fun x => (sendBatches batches.wakeup x.1, x.2 ++ [x.1])

inductive QueueEvent where
  | send (batch : List Asdu)
  | recv (f : Apdu) (batches : HookBatches)
  | t1
  | t2
  | t3

/-- One callback of the event loop; a rejected frame closes the session. -/
def queueStep (x : Woken) : QueueEvent → Option Woken
  | .send batch => if x.1.closed then none else some (sendBatch x.1 batch, x.2)
  | .recv f batches =>
      if x.1.closed then none
      else
        let r := iecsockFrameRecv batches.hooks x f
        some (if r.1 = 0 then r.2 else (iecsockClose r.2.1, r.2.2))
  | .t1 => if x.1.t1Timer then some (t1TimerRun { } ({ x.1 with t1Timer := false }, x.2)) else none
  | .t2 => if x.1.t2Timer then some (t2TimerRun { x.1 with t2Timer := false }, x.2) else none
  | .t3 => if x.1.t3Timer then some (t3TimerRun { x.1 with t3Timer := false }, x.2) else none

/-- A buffer waits only for the window or for STARTDT. -/
def NotStranded (s : Iecsock) : Prop :=
  s.writeQ ≠ [] → s.vs = (s.va + s.k) % 32767 ∨ s.gated

/-- What `transmit_wakeup` is documented to mean: everything queued is sent, and
everything sent is acknowledged. -/
def AllDone (s : Iecsock) : Prop := s.writeQ = [] ∧ s.va = s.vs

/-- An accepted acknowledgement finds the queue empty, or neither moves the window
of an open gate nor completes it. -/
def drainsQueue (x : Woken) : QueueEvent → Prop
  | .recv f _ =>
      match frameType f.h with
      | .i => x.1.gated ∨ checkNr x.1 f.h.nr = false ∨ x.1.writeQ = [] ∨
          (f.h.nr ≠ x.1.vs ∧ seqDist f.h.nr x.1.va = 0)
      | .s => checkNr x.1 f.h.nr = false ∨ x.1.writeQ = [] ∨
          (f.h.nr ≠ x.1.vs ∧ (x.1.gated ∨ seqDist f.h.nr x.1.va = 0))
      | .u => True
  | _ => True

/-- The invariant of the session and the record of its wakeups. -/
structure Flowing (x : Woken) : Prop where
  moving : NotStranded x.1
  va_le : x.1.va ≤ 32767
  done : ∀ s ∈ x.2, AllDone s

section Send

variable {s : Iecsock}

private theorem writeLoop_ends (q : List IecBuf) (queue : s.writeQ = q) :
    (writeLoop q s).writeQ = [] ∨
      (writeLoop q s).vs = ((writeLoop q s).va + (writeLoop q s).k) % 32767 := by
  induction q generalizing s with
  | nil => exact .inl queue
  | cons b q ih =>
    unfold writeLoop
    split
    · exact ih (by simp)
    · rename_i full
      exact .inr (not_not.mp full)

private theorem runWriteQueue_notStranded (s : Iecsock) : NotStranded (iecsockRunWriteQueue s) := by
  intro some
  unfold iecsockRunWriteQueue at some ⊢
  split at some
  · rename_i gate
    rw [if_pos gate]
    exact .inr gate
  · rename_i opened
    rw [if_neg opened]
    rcases writeLoop_ends s.writeQ rfl with empty | full
    · exact absurd empty some
    · exact .inl full

private theorem sendBatches_keeps (batches : List (List Asdu)) (h : NotStranded s) :
    NotStranded (sendBatches batches s) ∧ (sendBatches batches s).va = s.va := by
  induction batches generalizing s with
  | nil => exact ⟨h, rfl⟩
  | cons batch batches ih =>
    obtain ⟨moving, va⟩ := ih (runWriteQueue_notStranded { s with writeQ := s.writeQ ++ batch.map asduBuf })
    exact ⟨moving, va.trans (runWriteQueue_sends _).unsent.va⟩

end Send

section Step

variable {x y : Woken}

private theorem Flowing.batches (h : Flowing x) (batches : List (List Asdu)) :
    Flowing (sendBatches batches x.1, x.2) := by
  obtain ⟨moving, va⟩ := sendBatches_keeps batches h.moving
  refine ⟨moving, ?_, h.done⟩
  rw [va]
  exact h.va_le

private theorem Flowing.congr (h : Flowing x) {t : Iecsock} (queue : t.writeQ = x.1.writeQ)
    (va : t.va = x.1.va) (vs : t.vs = x.1.vs) (k : t.k = x.1.k) (gate : x.1.gated → t.gated) :
    Flowing (t, x.2) := by
  refine ⟨?_, va ▸ h.va_le, h.done⟩
  intro some
  rw [queue] at some
  rcases h.moving some with full | shut
  · left
    rw [vs, va, k]
    exact full
  · exact .inr (gate shut)

private theorem Flowing.counted (h : Flowing x) : Flowing (counted x.1, x.2) := by
  obtain ⟨_, _, same⟩ := counted_touches x.1
  rw [same]
  exact h.congr rfl rfl rfl rfl fun gate => gate

private theorem Flowing.acked (h : Flowing x) (batches : HookBatches) {f : Apdu} {t : Iecsock}
    (queue : t.writeQ = x.1.writeQ) (va : t.va = f.h.nr) (vs : t.vs = x.1.vs) (k : t.k = x.1.k)
    (gate : x.1.gated → t.gated)
    (fine : x.1.writeQ = [] ∨ (f.h.nr ≠ x.1.vs ∧ (x.1.gated ∨ seqDist f.h.nr x.1.va = 0))) :
    Flowing (wakeIfAcked batches.hooks (t, x.2)) := by
  have field := f.h.nr_lt
  have moved : Flowing (t, x.2) := by
    refine ⟨?_, by simp only [va]; omega, h.done⟩
    intro some
    rw [queue] at some
    obtain ⟨_, still⟩ := fine.resolve_left some
    rcases still with shut | same
    · exact .inr (gate shut)
    · rcases h.moving some with full | shut
      · left
        obtain ⟨_, residue⟩ := mod_eq_of_seqDist_eq_zero (by omega) h.va_le same
        rw [vs, va, k, Nat.add_mod, residue, ← Nat.add_mod]
        exact full
      · exact .inr (gate shut)
  unfold wakeIfAcked
  split
  · rename_i acked
    have empty : t.writeQ = [] := by
      rw [queue]
      refine fine.resolve_right ?_
      rintro ⟨behind, _⟩
      exact behind (va.symm.trans (acked.trans vs))
    have stopped : Flowing (t1TimerStop t, x.2 ++ [t1TimerStop t]) := by
      refine ⟨moved.moving, moved.va_le, ?_⟩
      intro s member
      rcases List.mem_append.mp member with old | new
      · exact h.done s old
      · obtain rfl := List.mem_singleton.mp new
        exact ⟨empty, acked⟩
    exact stopped.batches batches.wakeup
  · exact moved

private theorem Flowing.closed (h : Flowing x) : Flowing (iecsockClose x.1, x.2) :=
  ⟨fun some => absurd rfl some, h.va_le, h.done⟩

private theorem handled_flowing {f : Apdu} {batches : HookBatches} {r : Int} (h : Flowing x)
    (drains : drainsQueue x (.recv f batches)) (handled : Handled batches.hooks x f r y) :
    Flowing y := by
  have heard : Flowing (heardFrame x.1, x.2) := h.congr rfl rfl rfl rfl fun gate => gate
  cases handled with
  | ignored type gate => exact heard
  | badNr type opened nr => exact heard
  | @badNs m type opened nr acked ns =>
    simp only [drainsQueue, type, opened, nr, Bool.true_eq_false, false_or] at drains
    have woken : Flowing (ackedByIframe batches.hooks x f.h.nr) :=
      h.acked (f := f) batches rfl rfl rfl rfl (fun gate => gate)
        (drains.imp_right fun both => ⟨both.1, .inr both.2⟩)
    rw [acked] at woken
    exact woken.congr rfl rfl rfl rfl fun gate => gate
  | @iframe m type opened nr acked ns =>
    simp only [drainsQueue, type, opened, nr, Bool.true_eq_false, false_or] at drains
    have woken : Flowing (ackedByIframe batches.hooks x f.h.nr) :=
      h.acked (f := f) batches rfl rfl rfl rfl (fun gate => gate)
        (drains.imp_right fun both => ⟨both.1, .inr both.2⟩)
    rw [acked] at woken
    exact woken.counted.batches batches.data
  | sframe type nr =>
    simp only [drainsQueue, type, nr, Bool.true_eq_false, false_or] at drains
    exact h.acked (f := f) batches rfl rfl rfl rfl (fun gate => gate) drains
  | refused type no => exact heard
  | startact type func side =>
    -- the gate opens, and the queue is run at once
    have ran : Flowing (iecsockRunWriteQueue
        (iecsockUframeSend { heardFrame x.1 with stopdt := false } .startcon), x.2) := by
      refine ⟨runWriteQueue_notStranded _, ?_, h.done⟩
      simp only [(runWriteQueue_sends _).unsent.va]
      exact h.va_le
    exact ran.batches batches.activation
  | startcon type func side =>
    have told : Flowing ({ heardFrame x.1 with t1Timer := false, stopdt := false }, x.2) :=
      h.congr rfl rfl rfl rfl fun gate => absurd (side.symm.trans gate.1) (by decide)
    exact told.batches batches.activation
  | stopact type func side =>
    have told : Flowing (iecsockUframeSend { heardFrame x.1 with stopdt := true } .stopcon, x.2) :=
      h.congr rfl rfl rfl rfl fun gate => ⟨side, rfl⟩
    exact told.batches batches.deactivation
  | stopcon type func side =>
    have told : Flowing ({ heardFrame x.1 with stopdt := true }, x.2) :=
      h.congr rfl rfl rfl rfl fun gate => ⟨gate.1, rfl⟩
    exact told.batches batches.deactivation
  | testact type func quiet => exact h.congr rfl rfl rfl rfl fun gate => gate
  | testcon type func armed => exact h.congr rfl rfl rfl rfl fun gate => gate

private theorem queueStep_flowing (x : Woken) (e : QueueEvent) (y : Woken) (h : Flowing x)
    (drains : drainsQueue x e) (taken : queueStep x e = some y) : Flowing y := by
  cases e with
  | send batch =>
    simp only [queueStep] at taken
    split at taken
    · cases taken
    · obtain rfl := Option.some.inj taken
      exact h.batches [batch]
  | recv f batches =>
    simp only [queueStep] at taken
    split at taken
    · cases taken
    · obtain rfl := Option.some.inj taken
      have received := handled_flowing h drains (frameRecv_handled batches.hooks x f)
      split
      · exact received
      · exact received.closed
  | t1 =>
    simp only [queueStep] at taken
    split at taken
    · obtain rfl := Option.some.inj taken
      exact h.closed
    · cases taken
  | t2 =>
    simp only [queueStep] at taken
    split at taken
    · obtain rfl := Option.some.inj taken
      exact h.congr rfl rfl rfl rfl fun gate => gate
    · cases taken
  | t3 =>
    simp only [queueStep] at taken
    split at taken
    · obtain rfl := Option.some.inj taken
      exact h.congr rfl rfl rfl rfl fun gate => gate
    · cases taken

end Step

/-- In every run in which no acknowledgement opens or completes the window over a
waiting buffer: after every event a buffer waits only for the window or for
STARTDT, and `transmit_wakeup` was called only with everything sent and
acknowledged. -/
theorem nothing_stranded {s : Iecsock} (zero : ZeroCounters s) (empty : s.writeQ = [])
    {es : List QueueEvent} {x : Woken} (meets : Guarded queueStep drainsQueue (s, []) es)
    (reached : run queueStep (s, []) es = some x) :
    NotStranded x.1 ∧ ∀ t ∈ x.2, AllDone t := by
  have start : Flowing (s, []) := by
    refine ⟨fun some => absurd empty some, ?_, ?_⟩
    · have va := zero.1
      simp only [va]
      omega
    · intro t member
      cases member
  have flowing := guarded_invariant queueStep_flowing start meets reached
  exact ⟨flowing.moving, flowing.done⟩

/-- Two units with a window of one: the second waits for the window. -/
theorem nothing_stranded_full :
    let s := iecsockSetOptions (connectWritecb (Iecsock.fresh .master)) ⟨8, 1⟩
    ∃ x, run queueStep (s, []) [.send [reading, reading]] = some x ∧ x.1.writeQ ≠ [] ∧
      NotStranded x.1 := by
  intro s
  obtain ⟨x, reached, waiting⟩ : ∃ x, run queueStep (s, []) [.send [reading, reading]] = some x ∧
      x.1.writeQ ≠ [] := ⟨_, rfl, by decide⟩
  have meets : Guarded queueStep drainsQueue (s, []) [.send [reading, reading]] :=
    ⟨trivial, fun _ _ => trivial⟩
  exact ⟨x, reached, waiting, (nothing_stranded ⟨rfl, rfl, rfl, rfl⟩ rfl meets reached).1⟩

/-- The same two units, and the first is acknowledged: the second still waits, with
the window open, and `transmit_wakeup` is told that nothing does. -/
theorem stranded_after_ack :
    let s := iecsockSetOptions (connectWritecb (Iecsock.fresh .master)) ⟨8, 1⟩
    ∃ x, run queueStep (s, []) [.send [reading, reading], .recv ⟨sframeHdr 1, []⟩ { }] = some x ∧
      ¬ NotStranded x.1 ∧ ¬ ∀ t ∈ x.2, AllDone t := by
  intro s
  obtain ⟨x, reached, waiting, room, opened, woken⟩ : ∃ x,
      run queueStep (s, []) [.send [reading, reading], .recv ⟨sframeHdr 1, []⟩ { }] = some x ∧
      x.1.writeQ ≠ [] ∧ ¬ x.1.vs = (x.1.va + x.1.k) % 32767 ∧ ¬ x.1.gated ∧
      ∃ t ∈ x.2, t.writeQ ≠ [] :=
    ⟨_, rfl, by decide, by decide, by decide, by decide⟩
  refine ⟨x, reached, ?_, ?_⟩
  · intro moving
    rcases moving waiting with full | gated
    · exact room full
    · exact opened gated
  · intro all
    obtain ⟨t, member, waits⟩ := woken
    exact waits (all t member).1

end IecUtils.Link.Stranded
