/- Module: IecUtils/Link/AckQueue
   source: iecsock_run_ackw_queue, iecsock_run_write_queue, iecsock_iframe_recv and iecsock_sframe_recv of ieclink/iecsock.c
   digest: When ackw_q holds exactly the frames between va and vs, and every acknowledged buffer is freed once. -/

import IecUtils.Link.Duplex
import IecUtils.Link.Handling
import Mathlib.Data.List.TakeWhile

set_option autoImplicit false
set_option relaxedAutoImplicit false

namespace IecUtils.Link.AckQueue

open IecUtils.Foundation.SequenceNumber
open IecUtils.Foundation.Transition
open IecUtils.Link.Frame
open IecUtils.Link.Session
open IecUtils.Link.Endpoint
open IecUtils.Link.SendWindow
open IecUtils.Link.Duplex
open IecUtils.Link.Handling

/-- The send numbers in `ackw_q`, from head to tail. -/
def waitingNumbers (s : Iecsock) : List Nat := s.ackwQ.map fun b => b.h.ns

/-- `ackw_q` is the window from `va` to `vs`. All information frames ever written
are the buffers freed so far, each once and in order, and those still in `ackw_q`. -/
structure Exact (s : Iecsock) : Prop where
  numbers : waitingNumbers s = consecutive 32767 s.va (wrapDist 32767 s.vs s.va)
  freed : ∃ freed, infoFrames s.output = (freed ++ s.ackwQ).map IecBuf.wire

/-- The acknowledgement in a received frame, if it is accepted, leaves nothing to
trim when it comes with an information frame, and is not the alias 32767 when it
comes with a supervisory one, unless that empties the queue. -/
def trimsExactly (x : Station) : Event → Prop
  | .recv f _ =>
      match frameType f.h with
      | .i => x.1.gated ∨ checkNr x.1 f.h.nr = false ∨ seqDist f.h.nr x.1.va = 0
      | .s => checkNr x.1 f.h.nr = false ∨ f.h.nr ≠ 32767 ∨ x.1.vs = 0
      | .u => True
  | _ => True

/-- The bounds that go with the window. The write loop compares residues, so a `k`
beyond the modulus counts by its residue. -/
structure Tracked (s : Iecsock) : Prop where
  exact : Exact s
  va_le : s.va ≤ 32767
  vs_lt : s.vs < 32767
  bound : wrapDist 32767 s.vs s.va ≤ s.k % 32767
  prepared : ∀ b ∈ s.writeQ, frameType b.h = .i

section Step

variable {s t : Iecsock}

private theorem Tracked.congr (h : Tracked s) (hk : t.k = s.k) (hva : t.va = s.va)
    (hvs : t.vs = s.vs) (hq : t.writeQ = s.writeQ) (hack : t.ackwQ = s.ackwQ)
    (hout : infoFrames t.output = infoFrames s.output) : Tracked t := by
  refine ⟨⟨?_, ?_⟩, hva ▸ h.va_le, hvs ▸ h.vs_lt, ?_, ?_⟩
  · rw [waitingNumbers, hack, hva, hvs]
    exact h.exact.numbers
  · rw [hout, hack]
    exact h.exact.freed
  · rw [hva, hvs, hk]
    exact h.bound
  · rw [hq]
    exact h.prepared

private theorem infoFrames_other (out : List Apdu) {f : Apdu} (other : frameType f.h ≠ .i) :
    infoFrames (out ++ [f]) = infoFrames out := by
  simp [infoFrames, other]

private theorem Tracked.uframe (h : Tracked s) (func : UframeFunc) :
    Tracked (iecsockUframeSend s func) :=
  h.congr rfl rfl rfl rfl rfl (infoFrames_other s.output (by simp))

private theorem Tracked.send (s t : Iecsock) (h : Tracked s) (sent : Send s t) : Tracked t := by
  cases sent with
  | enqueue asdu =>
    refine { h with exact := { h.exact with }, prepared := ?_ }
    intro b member
    rcases List.mem_append.mp member with old | new
    · exact h.prepared b old
    · obtain rfl := List.mem_singleton.mp new
      exact frameType_asduBuf asdu
  | @transmit b q queue opened room =>
    have info : frameType b.h = .i := h.prepared b (by rw [queue]; exact List.mem_cons_self)
    have written : frameType (b.stamp s.vr s.vs).wire.h = .i := by
      change frameType ((b.h.setNr s.vr).setNs s.vs) = .i
      rw [frameType_setNs, frameType_setNr]
      exact info
    have stamped : (b.stamp s.vr s.vs).h.ns = s.vs := by
      change ((b.h.setNr s.vr).setNs s.vs).ns = s.vs
      have low := h.vs_lt
      rw [Iechdr.ns_setNs]
      exact Nat.mod_eq_of_lt (by omega)
    have residue : s.k % 32767 < 32767 := Nat.mod_lt _ (by decide)
    -- the equality test of the loop is the test for a window full of `k` modulo 32767
    have spaced : wrapDist 32767 s.vs s.va ≠ s.k % 32767 := by
      intro full
      apply room
      rw [← Nat.add_mod_mod]
      exact (eq_add_mod_iff h.vs_lt h.va_le residue).mpr full
    have bound := h.bound
    have grown := wrapDist_succ h.vs_lt h.va_le (by omega)
    rw [transmitBuf_eq]
    refine ⟨⟨?_, ?_⟩, h.va_le, Nat.mod_lt _ (by decide), ?_, ?_⟩
    · simp only [waitingNumbers, List.map_append, List.map_singleton, stamped]
      rw [grown, consecutive_snoc, add_wrapDist_mod h.vs_lt h.va_le]
      exact congrArg (· ++ [s.vs]) h.exact.numbers
    · obtain ⟨freed, all⟩ := h.exact.freed
      refine ⟨freed, ?_⟩
      have last : infoFrames [(b.stamp s.vr s.vs).wire] = [(b.stamp s.vr s.vs).wire] := by
        simp [infoFrames, written]
      simp only [infoFrames_append, last, all, List.map_append, List.map_singleton,
        List.append_assoc]
    · simp only [grown]
      omega
    · intro c member
      exact h.prepared c (by rw [queue]; exact List.mem_cons_of_mem _ member)

private theorem Tracked.sends (h : Tracked s) (sent : Sends s t) : Tracked t :=
  sent.keeps Tracked.send h

private theorem Tracked.supervised (h : Tracked s) : Tracked (supervised s) := by
  obtain ⟨_, same⟩ := supervised_touches s
  rw [same]
  exact h.congr rfl rfl rfl rfl rfl rfl

private theorem Tracked.counted (h : Tracked s) : Tracked (counted s) := by
  rcases counted_cases s with ⟨_, same⟩ | ⟨_, same⟩
  · rw [same]
    exact h.congr rfl rfl rfl rfl rfl (infoFrames_other s.output (by simp))
  · rw [same]
    exact h.congr rfl rfl rfl rfl rfl rfl

private theorem Tracked.same (h : Tracked s) {f : Apdu} (nothing : seqDist f.h.nr s.va = 0) :
    Tracked { s with va := f.h.nr } := by
  have field := f.h.nr_lt
  obtain ⟨zero, residue⟩ := mod_eq_of_seqDist_eq_zero (by omega) h.va_le nothing
  have kept := wrapDist_advance h.vs_lt h.va_le (show f.h.nr ≤ 32767 by omega) (by omega)
  rw [zero, Nat.add_zero] at kept
  refine ⟨⟨?_, h.exact.freed⟩, by simp only; omega, h.vs_lt, ?_, h.prepared⟩
  · simp only [kept]
    rw [consecutive_congr residue]
    exact h.exact.numbers
  · simp only [kept]
    exact h.bound

/-- The scan of the supervisory handler frees exactly the buffers below the
acknowledged number. -/
private theorem Tracked.trimmed (h : Tracked s) {f : Apdu} (passed : checkNr s f.h.nr = true)
    (named : f.h.nr ≠ 32767 ∨ s.vs = 0) :
    Tracked { iecsockRunAckwQueue s f.h.nr with va := f.h.nr } := by
  have field := f.h.nr_lt
  have accepted := (checkNr_eq h.va_le f.h.nr).mp passed
  have shrunk := wrapDist_advance h.vs_lt h.va_le (show f.h.nr ≤ 32767 by omega) accepted
  have bound := h.bound
  have residue : s.k % 32767 < 32767 := Nat.mod_lt _ (by decide)
  have numbers : (s.ackwQ.dropWhile fun b => b.h.ns != f.h.nr).map (fun b => b.h.ns) =
      consecutive 32767 f.h.nr (wrapDist 32767 s.vs f.h.nr) := by
    have queue := h.exact.numbers
    rw [waitingNumbers] at queue
    rcases Nat.lt_or_ge f.h.nr 32767 with lt | ge
    · have dropped := map_dropWhile_consecutive queue (by omega) accepted
      have edge := add_wrapDist_mod lt h.va_le
      rw [edge] at dropped
      rw [dropped, ← shrunk, Nat.add_sub_cancel]
      have same : (s.va + wrapDist 32767 f.h.nr s.va) % 32767 = f.h.nr % 32767 := by
        rw [edge]
        exact (Nat.mod_eq_of_lt lt).symm
      exact consecutive_congr same _
    · -- the alias matches no buffer, so the scan empties the queue
      have wrapped : f.h.nr = 32767 := by omega
      have start := named.resolve_left fun other => other wrapped
      have none : wrapDist 32767 s.vs f.h.nr = 0 := by
        rw [start, wrapped]
        rfl
      have all : s.ackwQ.dropWhile (fun b => b.h.ns != f.h.nr) = [] := by
        apply List.dropWhile_eq_nil_iff.mpr
        intro b member
        have number : b.h.ns ∈ s.ackwQ.map fun b => b.h.ns := List.mem_map_of_mem member
        rw [queue] at number
        obtain ⟨n, _, value⟩ := List.mem_map.mp number
        have low : n % 32767 < 32767 := Nat.mod_lt _ (by decide)
        simp only [bne_iff_ne, ne_eq]
        omega
      rw [all, none]
      rfl
  refine ⟨⟨numbers, ?_⟩, by simp only; omega, h.vs_lt, ?_, h.prepared⟩
  · obtain ⟨freed, written⟩ := h.exact.freed
    refine ⟨freed ++ s.ackwQ.takeWhile fun b => b.h.ns != f.h.nr, ?_⟩
    change infoFrames s.output = (_ ++ s.ackwQ.dropWhile _).map IecBuf.wire
    rw [List.append_assoc, List.takeWhile_append_dropWhile]
    exact written
  · change wrapDist 32767 s.vs f.h.nr ≤ s.k % 32767
    omega

end Step

private theorem outcome_tracked (x : Station) (e : Event) (y : Station) (h : Tracked x.1)
    (trims : trimsExactly x e) (outcome : Outcome x e y) : y.1.closed = true ∨ Tracked y.1 := by
  have heard : Tracked (heardFrame x.1) := h.congr rfl rfl rfl rfl rfl rfl
  have flags (t1 stopdt : Bool) : Tracked { heardFrame x.1 with t1Timer := t1, stopdt := stopdt } :=
    heard.congr rfl rfl rfl rfl rfl rfl
  cases outcome with
  | app sent delivered => exact .inr (h.sends sent)
  | ignored type gate => exact .inr heard
  | refused => exact .inl rfl
  | badNs passed sent => exact .inl rfl
  | iframe type opened passed before after delivered =>
    simp only [trimsExactly, type, opened, passed, Bool.true_eq_false, false_or] at trims
    have acked := heard.same trims
    exact .inr ((acked.supervised.sends before).counted.sends after)
  | sframe type passed sent delivered =>
    simp only [trimsExactly, type, passed, Bool.true_eq_false, false_or] at trims
    have acked := heard.trimmed passed trims
    exact .inr (acked.supervised.sends sent)
  | startact type func side sent delivered =>
    exact .inr (((flags x.1.t1Timer false).uframe .startcon).sends sent)
  | startcon type func side sent delivered => exact .inr ((flags false false).sends sent)
  | stopact type func side sent delivered =>
    exact .inr (((flags x.1.t1Timer true).uframe .stopcon).sends sent)
  | stopcon type func side sent delivered => exact .inr ((flags x.1.t1Timer true).sends sent)
  | testact type func quiet => exact .inr ((h.uframe .testcon).congr rfl rfl rfl rfl rfl rfl)
  | testcon type func armed => exact .inr (heard.congr rfl rfl rfl rfl rfl rfl)
  | t1 => exact .inl rfl
  | t2 => exact .inr (h.congr rfl rfl rfl rfl rfl (infoFrames_other x.1.output (by simp)))
  | t3 => exact .inr ((h.uframe .testact).congr rfl rfl rfl rfl rfl rfl)

/-- A session as it is when nothing has been queued on it yet. -/
structure Idle (s : Iecsock) : Prop where
  zero : ZeroCounters s
  writeQ : s.writeQ = []
  ackwQ : s.ackwQ = []
  output : infoFrames s.output = []

private theorem Idle.tracked {s : Iecsock} (h : Idle s) : Tracked s := by
  obtain ⟨va, vs, _, _⟩ := h.zero
  have none : wrapDist 32767 s.vs s.va = 0 := by
    rw [va, vs]
    rfl
  refine ⟨⟨?_, ⟨[], ?_⟩⟩, by omega, by omega, ?_, ?_⟩
  · rw [waitingNumbers, h.ackwQ, none]
    rfl
  · rw [h.output, h.ackwQ]
    rfl
  · rw [none]
    exact Nat.zero_le _
  · rw [h.writeQ]
    intro b member
    cases member

/-- In every run whose acknowledgements trim exactly, with any options, any peer
and any application: while the session is open, `ackw_q` holds the numbers from
`va` up to `vs` and no others, at most `k` of them, and every buffer written is
still there or has been freed once. -/
theorem ackwQueue_exact {start x : Station} {es : List Event} (idle : Idle start.1)
    (meets : Guarded step trimsExactly start es) (reached : run step start es = some x)
    (opened : x.1.closed = false) :
    waitingNumbers x.1 = consecutive 32767 x.1.va x.1.ackwQ.length ∧
      (x.1.ackwQ.length : Int) = seqDist x.1.vs x.1.va ∧ x.1.ackwQ.length ≤ x.1.k ∧
      ∃ freed, infoFrames x.1.output = (freed ++ x.1.ackwQ).map IecBuf.wire := by
  rcases open_invariant (I := fun z => Tracked z.1) outcome_tracked idle.tracked meets reached
    with closed | tracked
  · exact absurd (opened.symm.trans closed) (by decide)
  · have size : x.1.ackwQ.length = wrapDist 32767 x.1.vs x.1.va := by
      have count := congrArg List.length tracked.exact.numbers
      simpa [waitingNumbers, consecutive] using count
    refine ⟨?_, ?_, ?_, tracked.exact.freed⟩
    · rw [size]
      exact tracked.exact.numbers
    · rw [seqDist_eq tracked.va_le, size]
    · have bound := tracked.bound
      have residue := Nat.mod_le x.1.k 32767
      omega

/-- Two units sent, one acknowledged by a supervisory frame. -/
theorem ackwQueue_exact_half :
    let start : Station := (connectWritecb (Iecsock.fresh .master), AppLog.empty)
    ∃ x, run step start [.app (.enqueue reading), .app (.enqueue reading), .app .runWriteQueue,
        .recv ⟨sframeHdr 1, []⟩ { }] = some x ∧ waitingNumbers x.1 = [1] ∧
      waitingNumbers x.1 = consecutive 32767 x.1.va x.1.ackwQ.length := by
  intro start
  have idle : Idle start.1 := ⟨⟨rfl, rfl, rfl, rfl⟩, rfl, rfl, rfl⟩
  have meets : Guarded step trimsExactly start [.app (.enqueue reading), .app (.enqueue reading),
      .app .runWriteQueue, .recv ⟨sframeHdr 1, []⟩ { }] :=
    ⟨trivial, fun _ _ => ⟨trivial, fun _ _ => ⟨trivial, fun _ _ =>
      ⟨.inr (.inl (by decide)), fun _ _ => trivial⟩⟩⟩⟩
  obtain ⟨x, reached, numbers, opened⟩ : ∃ x, run step start [.app (.enqueue reading),
      .app (.enqueue reading), .app .runWriteQueue, .recv ⟨sframeHdr 1, []⟩ { }] = some x ∧
      waitingNumbers x.1 = [1] ∧ x.1.closed = false := ⟨_, rfl, by decide, by decide⟩
  exact ⟨x, reached, numbers, (ackwQueue_exact idle meets reached opened).1⟩

/-- One unit sent and acknowledged by an information frame: the buffer stays. -/
theorem ackwQueue_kept_by_iframe :
    let start : Station := (connectWritecb (Iecsock.fresh .master), AppLog.empty)
    ∃ x, run step start [.recv ⟨uframeHdr .startcon, []⟩ { }, .app (.enqueue reading),
        .app .runWriteQueue, .recv (bareIframe 0 1) { }] = some x ∧ x.1.closed = false ∧
      x.1.va = x.1.vs ∧ waitingNumbers x.1 = [0] ∧
      ¬ (x.1.ackwQ.length : Int) = seqDist x.1.vs x.1.va := by
  intro start
  refine ⟨_, rfl, ?_⟩
  decide

end IecUtils.Link.AckQueue
