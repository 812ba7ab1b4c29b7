/- Module: IecUtils/Link/SendWindow
   source: iecsock_run_write_queue, check_nr and iecsock_can_queue of ieclink/iecsock.c
   digest: The send window never holds more than k frames, against any peer and any application. -/

import IecUtils.Link.Endpoint

set_option autoImplicit false
set_option relaxedAutoImplicit false

namespace IecUtils.Link.SendWindow

open IecUtils.Foundation.SequenceNumber
open IecUtils.Foundation.Transition
open IecUtils.Link.Frame
open IecUtils.Link.Session
open IecUtils.Link.Endpoint

def ZeroCounters (s : Iecsock) : Prop := s.va = 0 ∧ s.vs = 0 ∧ s.vr = 0 ∧ s.vaPeer = 0

/-- The lower edge may be the alias 32767 that a hostile peer can store there;
the number of frames between the edges is bounded all the same. -/
structure Window (k : Nat) (s : Iecsock) : Prop where
  option : s.k = k
  va_le : s.va ≤ 32767
  vs_lt : s.vs < 32767
  bound : wrapDist 32767 s.vs s.va ≤ k

section

variable {k : Nat}

theorem Window.start {s : Iecsock} (zero : ZeroCounters s) (option : s.k = k) : Window k s := by
  obtain ⟨va, vs, _, _⟩ := zero
  refine ⟨option, by omega, by omega, ?_⟩
  rw [va, vs]
  exact Nat.zero_le k

theorem Window.congr {s t : Iecsock} (h : Window k s) (hk : t.k = s.k) (hva : t.va = s.va)
    (hvs : t.vs = s.vs) : Window k t where
  option := hk.trans h.option
  va_le := hva ▸ h.va_le
  vs_lt := hvs ▸ h.vs_lt
  bound := hva ▸ hvs ▸ h.bound

theorem Window.full_iff {s : Iecsock} (h : Window k s) (hk : k < 32767) :
    s.vs = (s.va + s.k) % 32767 ↔ wrapDist 32767 s.vs s.va = k := by
  rw [h.option]
  exact eq_add_mod_iff h.vs_lt h.va_le hk

theorem Window.transmit {s : Iecsock} (h : Window k s) (hk : k < 32767)
    (room : s.vs ≠ (s.va + s.k) % 32767) :
    wrapDist 32767 ((s.vs + 1) % 32767) s.va = wrapDist 32767 s.vs s.va + 1 ∧
      wrapDist 32767 s.vs s.va < k := by
  have notFull : wrapDist 32767 s.vs s.va ≠ k := fun full => room ((h.full_iff hk).mpr full)
  have below : wrapDist 32767 s.vs s.va < k := by
    have bound := h.bound
    omega
  exact ⟨wrapDist_succ h.vs_lt h.va_le (by omega), below⟩

theorem Window.acknowledge {s : Iecsock} (h : Window k s) (f : Apdu)
    (passed : checkNr s f.h.nr = true) : Window k { s with va := f.h.nr } := by
  have inField := f.h.nr_lt
  have accepted := (checkNr_eq h.va_le f.h.nr).mp passed
  have shrunk := wrapDist_advance h.vs_lt h.va_le (by omega) accepted
  have bound := h.bound
  exact ⟨h.option, by simp only; omega, h.vs_lt, by simp only; omega⟩

theorem Window.canQueue {s : Iecsock} (h : Window k s) (hk : k < 32767) :
    iecsockCanQueue s = k - wrapDist 32767 s.vs s.va := by
  have bound := h.bound
  rw [iecsockCanQueue, seqDist_eq h.va_le, h.option]
  omega

theorem Window.instant {x y : Station} (hk : k < 32767) (h : Window k x.1)
    (change : Instant x y) : Window k y.1 := by
  cases change with
  | here l =>
    cases l with
    | enqueue asdu => exact h.congr rfl rfl rfl
    | @transmit b q queue opened room =>
      obtain ⟨next, below⟩ := h.transmit hk room
      refine ⟨by simpa using h.option, by simpa using h.va_le, ?_, ?_⟩
      · simpa using Nat.mod_lt (x.1.vs + 1) (by decide : 0 < 32767)
      · simp only [transmitBuf_eq]
        omega
    | sframe => exact h.congr rfl rfl rfl
    | retime t1 t2 t3 => exact h.congr rfl rfl rfl
  | acknowledge f passed => exact h.acknowledge f passed
  | acknowledgeTrim f passed => exact (h.acknowledge f passed).congr rfl rfl rfl
  | accept f => exact h.congr rfl rfl rfl
  | control does => cases does <;> exact h.congr rfl rfl rfl
  | test => exact h.congr rfl rfl rfl
  | close => exact h.congr rfl rfl rfl

theorem Window.instants {x y : Station} (hk : k < 32767) (h : Window k x.1)
    (path : Instants x y) : Window k y.1 := by
  induction path with
  | refl => exact h
  | tail _ last ih => exact ih.instant hk last

theorem Window.run {x y : Station} {es : List Event} (hk : k < 32767) (h : Window k x.1)
    (reached : run step x es = some y) : Window k y.1 :=
  run_invariant (I := fun z => Window k z.1)
    (fun _ _ _ inv happens => inv.instants hk (step_instants happens)) h reached

/-- The `i`-th buffer of a burst, numbered as the write loop numbers it. -/
def numbered (s : Iecsock) (i : Nat) (b : IecBuf) : IecBuf :=
  b.stamp s.vr ((s.vs + i) % 32767)

/-- The buffers one call of `iecsock_run_write_queue` transmits, if it sends `n`. -/
def burst (s : Iecsock) (q : List IecBuf) (n : Nat) : List IecBuf :=
  (q.take n).mapIdx (numbered s)

theorem burst_cons (s : Iecsock) (b : IecBuf) (q : List IecBuf) (n : Nat) (hvs : s.vs < 32767) :
    burst s (b :: q) (n + 1) =
      b.stamp s.vr s.vs ::
        burst (transmitBuf { s with writeQ := q } b) q n := by
  have later : (fun i => numbered s (i + 1)) = numbered (transmitBuf { s with writeQ := q } b) := by
    funext i c
    simp only [numbered, transmitBuf_eq]
    rw [Nat.mod_add_mod, show s.vs + (i + 1) = s.vs + 1 + i by omega]
  have first : numbered s 0 b = b.stamp s.vr s.vs := by
    simp [numbered, Nat.mod_eq_of_lt hvs]
  simp only [burst, List.take_succ_cons, List.mapIdx_cons, first, later]

/-- The session after the first `n` buffers of its queue `q` have been transmitted. -/
def afterBurst (s : Iecsock) (q : List IecBuf) (n : Nat) : Iecsock :=
  { s with
    writeQ := q.drop n
    ackwQ := s.ackwQ ++ burst s q n
    output := s.output ++ (burst s q n).map IecBuf.wire
    vs := (s.vs + n) % 32767
    t1Timer := s.t1Timer || decide (0 < n) }

theorem afterBurst_zero {s : Iecsock} (hvs : s.vs < 32767) : afterBurst s s.writeQ 0 = s := by
  simp [afterBurst, burst, Nat.mod_eq_of_lt hvs]

theorem afterBurst_succ {s : Iecsock} {b : IecBuf} {q : List IecBuf} (hvs : s.vs < 32767) (n : Nat) :
    afterBurst (transmitBuf { s with writeQ := q } b) q n = afterBurst s (b :: q) (n + 1) := by
  have count : s.vs + 1 + n = s.vs + (n + 1) := by omega
  unfold afterBurst
  rw [burst_cons s b q n hvs]
  simp [count]

theorem writeLoop_eq (hk : k < 32767) (q : List IecBuf) (s : Iecsock) (h : Window k s)
    (queue : s.writeQ = q) :
    writeLoop q s = afterBurst s q (min q.length (k - wrapDist 32767 s.vs s.va)) := by
  induction q generalizing s with
  | nil =>
    have nothing := afterBurst_zero h.vs_lt
    rw [queue] at nothing
    simpa [writeLoop] using nothing.symm
  | cons b q ih =>
    unfold writeLoop
    split
    · rename_i room
      obtain ⟨next, below⟩ := h.transmit hk room
      have after : Window k (transmitBuf { s with writeQ := q } b) := by
        refine ⟨by simpa using h.option, by simpa using h.va_le, ?_, ?_⟩
        · simpa using Nat.mod_lt (s.vs + 1) (by decide : 0 < 32767)
        · simp only [transmitBuf_eq]
          omega
      have count : min (b :: q).length (k - wrapDist 32767 s.vs s.va) =
          min q.length (k - wrapDist 32767 ((s.vs + 1) % 32767) s.va) + 1 := by
        rw [next, List.length_cons]
        omega
      rw [ih _ after (by simp), count, ← afterBurst_succ h.vs_lt]
      simp only [transmitBuf_eq]
    · rename_i blocked
      have full := (h.full_iff hk).mp (not_not.mp blocked)
      have nothing := afterBurst_zero h.vs_lt
      rw [queue] at nothing
      rw [full, Nat.sub_self, Nat.min_zero, nothing]

end

/-- At every instant of every run, the inside of hooks and handlers included, at
most `k` information frames are unacknowledged, `iecsock_can_queue` tells how many
more may be sent, and a call of `iecsock_run_write_queue` that the gate lets
through sends exactly that many from the head of `write_q`, numbered on from `vs`. -/
theorem send_window_bounded {k : Nat} (hk : k < 32767)
    {start x y : Station} {es : List Event}
    (zero : ZeroCounters start.1) (option : start.1.k = k)
    (reached : run step start es = some x) (instant : Instants x y) :
    seqDist y.1.vs y.1.va ≤ k ∧
      (iecsockCanQueue y.1 : Int) = k - seqDist y.1.vs y.1.va ∧
      (¬ y.1.gated →
        let n := min y.1.writeQ.length (k - (seqDist y.1.vs y.1.va).toNat)
        let sent := (y.1.writeQ.take n).mapIdx fun i b => b.stamp y.1.vr ((y.1.vs + i) % 32767)
        iecsockRunWriteQueue y.1 =
          { y.1 with
            writeQ := y.1.writeQ.drop n
            ackwQ := y.1.ackwQ ++ sent
            output := y.1.output ++ sent.map IecBuf.wire
            vs := (y.1.vs + n) % 32767
            t1Timer := y.1.t1Timer || decide (0 < n) }) := by
  have window : Window k y.1 :=
    ((Window.start zero option).run hk reached).instants hk instant
  have bound := window.bound
  rw [seqDist_eq window.va_le]
  refine ⟨by exact_mod_cast bound, ?_, ?_⟩
  · rw [window.canQueue hk]
    omega
  · intro opened
    rw [iecsockRunWriteQueue, if_neg opened, writeLoop_eq hk _ y.1 window rfl]
    rfl

theorem send_window_bounded_fresh :
    ∃ x, run step (Iecsock.fresh .master, AppLog.empty)
        [.app (.enqueue ⟨[0x64], by decide⟩), .app .runWriteQueue] = some x ∧
      seqDist x.1.vs x.1.va ≤ 12 := by
  have reached : run step (Iecsock.fresh .master, AppLog.empty)
      [.app (.enqueue ⟨[0x64], by decide⟩), .app .runWriteQueue] = some _ := rfl
  exact ⟨_, reached,
    (send_window_bounded (k := 12) (by decide) ⟨rfl, rfl, rfl, rfl⟩ rfl reached .refl).1⟩

end IecUtils.Link.SendWindow
