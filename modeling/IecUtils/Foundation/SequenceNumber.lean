/- Module: IecUtils/Foundation/SequenceNumber
   source: none (general arithmetic of wrapping counters)
   digest: Distances between residues recover the distances of unbounded counters. -/

import Mathlib.Data.List.Infix
import Mathlib.Tactic.SplitIfs

set_option autoImplicit false
set_option relaxedAutoImplicit false

namespace IecUtils.Foundation.SequenceNumber

/-- How far `x` lies ahead of `y` on a counter that wraps at `M`. The second
argument may be `M` itself, an alias of zero. -/
def wrapDist (M x y : Nat) : Nat := (x + (M - y)) % M

theorem wrapDist_eq {M x y : Nat} (hx : x < M) (hy : y ≤ M) :
    wrapDist M x y = if y ≤ x then x - y else x + M - y := by
  unfold wrapDist
  split
  · rename_i le
    rw [show x + (M - y) = x - y + M by omega, Nat.add_mod_right]
    exact Nat.mod_eq_of_lt (by omega)
  · rename_i gt
    rw [Nat.mod_eq_of_lt (by omega)]
    omega

theorem wrapDist_alias {M y : Nat} : wrapDist M M y = wrapDist M 0 y := by
  unfold wrapDist
  rw [Nat.add_comm, Nat.add_mod_right, Nat.zero_add]

theorem wrapDist_eq_zero_iff {M x y : Nat} (hx : x < M) (hy : y < M) :
    wrapDist M x y = 0 ↔ y = x := by
  rw [wrapDist_eq hx hy.le]
  split_ifs <;> omega

theorem wrapDist_mod {M a b : Nat} (le : a ≤ b) (near : b - a < M) :
    wrapDist M (b % M) (a % M) = b - a := by
  obtain ⟨c, rfl⟩ := Nat.exists_eq_add_of_le le
  have residue : a % M < M := Nat.mod_lt _ (by omega)
  have lap : (a + c) % M = if a % M + c < M then a % M + c else a % M + c - M := by
    rw [← Nat.mod_add_mod]
    split
    · exact Nat.mod_eq_of_lt ‹_›
    · rw [Nat.mod_eq_sub_mod (by omega)]
      exact Nat.mod_eq_of_lt (by omega)
  rw [wrapDist_eq (Nat.mod_lt _ (by omega)) residue.le, lap]
  split_ifs <;> omega

theorem wrapDist_mod_of_le {M a b : Nat} (ha : a ≤ M) (le : a ≤ b) (near : b - a < M) :
    wrapDist M (b % M) a = b - a := by
  rcases Nat.lt_or_ge a M with lt | ge
  · have reduced := wrapDist_mod le near
    rwa [Nat.mod_eq_of_lt lt] at reduced
  · obtain rfl : a = M := by omega
    have lap : b % a = b - a := by
      rw [Nat.mod_eq_sub_mod le]
      exact Nat.mod_eq_of_lt near
    rw [wrapDist, lap, Nat.sub_self, Nat.add_zero]
    exact Nat.mod_eq_of_lt near

/-- A window whose lower edge moves forward by an accepted amount shrinks by
exactly that amount. -/
theorem wrapDist_advance {M s a n : Nat} (hs : s < M) (ha : a ≤ M) (hn : n ≤ M)
    (accepted : wrapDist M n a ≤ wrapDist M s a) :
    wrapDist M s n + wrapDist M n a = wrapDist M s a := by
  rcases Nat.lt_or_ge n M with lt | ge
  · rw [wrapDist_eq lt ha, wrapDist_eq hs ha] at accepted
    rw [wrapDist_eq hs hn, wrapDist_eq lt ha, wrapDist_eq hs ha]
    split_ifs at accepted ⊢ <;> omega
  · obtain rfl : n = M := by omega
    have pos : 0 < n := by omega
    rw [wrapDist_alias, wrapDist_eq pos ha, wrapDist_eq hs ha] at accepted
    rw [wrapDist_alias, wrapDist_eq hs le_rfl, wrapDist_eq pos ha, wrapDist_eq hs ha]
    split_ifs at accepted ⊢ <;> omega

theorem wrapDist_succ {M s a : Nat} (hs : s < M) (ha : a ≤ M) (room : wrapDist M s a + 1 < M) :
    wrapDist M ((s + 1) % M) a = wrapDist M s a + 1 := by
  rcases Nat.lt_or_ge (s + 1) M with lt | ge
  · rw [Nat.mod_eq_of_lt lt]
    rw [wrapDist_eq hs ha] at room ⊢
    rw [wrapDist_eq lt ha]
    split_ifs at room ⊢ <;> omega
  · have full : s + 1 = M := by omega
    rw [full, Nat.mod_self]
    rw [wrapDist_eq hs ha] at room ⊢
    rw [wrapDist_eq (by omega) ha]
    split_ifs at room ⊢ <;> omega

theorem eq_add_mod_iff {M s a k : Nat} (hs : s < M) (ha : a ≤ M) (hk : k < M) :
    s = (a + k) % M ↔ wrapDist M s a = k := by
  have wrap : (a + k) % M = if a + k < M then a + k else a + k - M := by
    split
    · exact Nat.mod_eq_of_lt ‹_›
    · rw [Nat.mod_eq_sub_mod (by omega)]
      exact Nat.mod_eq_of_lt (by omega)
  rw [wrap, wrapDist_eq hs ha]
  split_ifs <;> omega

/-- The residues in `rs` belong to counters that climb from `lo` to `hi`. -/
def Climbs (M : Nat) : Nat → List Nat → Nat → Prop
  | lo, [], hi => lo ≤ hi
  | lo, r :: rs, hi => ∃ n, lo ≤ n ∧ r = n % M ∧ Climbs M n rs hi

theorem Climbs.le {M lo hi : Nat} {rs : List Nat} (h : Climbs M lo rs hi) : lo ≤ hi := by
  induction rs generalizing lo with
  | nil => exact h
  | cons r rs ih =>
    obtain ⟨n, le, _, rest⟩ := h
    exact le.trans (ih rest)

theorem Climbs.mono {M lo hi hi' : Nat} {rs : List Nat} (h : Climbs M lo rs hi)
    (le : hi ≤ hi') : Climbs M lo rs hi' := by
  induction rs generalizing lo with
  | nil => exact Nat.le_trans h le
  | cons r rs ih =>
    obtain ⟨n, below, res, rest⟩ := h
    exact ⟨n, below, res, ih rest⟩

theorem Climbs.weaken {M lo lo' hi : Nat} {rs : List Nat} (h : Climbs M lo rs hi)
    (le : lo' ≤ lo) : Climbs M lo' rs hi := by
  cases rs with
  | nil => exact le.trans h
  | cons r rs =>
    obtain ⟨n, below, res, rest⟩ := h
    exact ⟨n, le.trans below, res, rest⟩

theorem Climbs.snoc {M lo hi : Nat} {rs : List Nat} (h : Climbs M lo rs hi) :
    Climbs M lo (rs ++ [hi % M]) hi := by
  induction rs generalizing lo with
  | nil => exact ⟨hi, h, rfl, le_refl hi⟩
  | cons r rs ih =>
    obtain ⟨n, below, res, rest⟩ := h
    exact ⟨n, below, res, ih rest⟩

/-- The residues of `count` consecutive counters from `start` on. -/
def consecutive (M start count : Nat) : List Nat :=
  (List.range' start count).map (· % M)

@[simp] theorem consecutive_zero (M start : Nat) : consecutive M start 0 = [] := rfl

theorem consecutive_succ (M start count : Nat) :
    consecutive M start (count + 1) = start % M :: consecutive M (start + 1) count := by
  simp [consecutive, List.range'_succ]

theorem consecutive_snoc (M start count : Nat) :
    consecutive M start (count + 1) =
      consecutive M start count ++ [(start + count) % M] := by
  simp [consecutive, List.range'_concat]

theorem add_wrapDist_mod {M s a : Nat} (hs : s < M) (ha : a ≤ M) : (a + wrapDist M s a) % M = s := by
  rw [wrapDist_eq hs ha]
  split_ifs with le
  · rw [Nat.add_sub_cancel' le]
    exact Nat.mod_eq_of_lt hs
  · rw [show a + (s + M - a) = s + M by omega, Nat.add_mod_right]
    exact Nat.mod_eq_of_lt hs

theorem mod_eq_of_wrapDist_eq_zero {M n a : Nat} (hn : n ≤ M) (ha : a ≤ M)
    (zero : wrapDist M n a = 0) : n % M = a % M := by
  rcases Nat.lt_or_ge n M with lt | ge
  · rw [wrapDist_eq lt ha] at zero
    split_ifs at zero with le
    · rw [show n = a by omega]
    · rw [show n = 0 by omega, show a = M by omega, Nat.mod_self, Nat.zero_mod]
  · obtain rfl : n = M := by omega
    rcases Nat.eq_zero_or_pos n with none | pos
    · rw [show a = n by omega]
    · rw [wrapDist_alias, wrapDist_eq pos ha] at zero
      split_ifs at zero with le
      · rw [show a = 0 by omega, Nat.mod_self, Nat.zero_mod]
      · rw [show a = n by omega]

theorem consecutive_congr {M a b : Nat} (same : a % M = b % M) (count : Nat) :
    consecutive M a count = consecutive M b count := by
  induction count generalizing a b with
  | zero => rfl
  | succ count ih =>
    have next : (a + 1) % M = (b + 1) % M := by
      rw [Nat.add_mod, same, ← Nat.add_mod]
    rw [consecutive_succ, consecutive_succ, same, ih next]

/-- A scan for one number of a window stops there and leaves the rest of the window;
one past the end of the window leaves nothing. -/
theorem map_dropWhile_consecutive {α : Type} {f : α → Nat} {M a n d : Nat} {q : List α}
    (numbers : q.map f = consecutive M a n) (small : n < M) (inside : d ≤ n) :
    (q.dropWhile fun b => f b != (a + d) % M).map f = consecutive M (a + d) (n - d) := by
  induction d generalizing a n q with
  | zero =>
    cases n with
    | zero =>
      obtain rfl := List.map_eq_nil_iff.mp numbers
      rfl
    | succ n =>
      rw [consecutive_succ] at numbers
      obtain ⟨b, rest, rfl, first, others⟩ := List.map_eq_cons_iff.mp numbers
      rw [List.dropWhile_cons_of_neg (by simp [first]), List.map_cons, first, others]
      exact (consecutive_succ M a n).symm
  | succ d ih =>
    cases n with
    | zero => omega
    | succ n =>
      rw [consecutive_succ] at numbers
      obtain ⟨b, rest, rfl, first, others⟩ := List.map_eq_cons_iff.mp numbers
      have differs : a % M ≠ (a + (d + 1)) % M := by
        intro same
        have apart : wrapDist M ((a + (d + 1)) % M) (a % M) = a + (d + 1) - a :=
          wrapDist_mod (by omega) (by omega)
        have low : a % M < M := Nat.mod_lt _ (by omega)
        rw [← same, wrapDist_eq low low.le, if_pos le_rfl] at apart
        omega
      rw [List.dropWhile_cons_of_pos (by simpa [first] using differs)]
      have rest := ih others (by omega) (by omega)
      rw [show a + 1 + d = a + (d + 1) by omega] at rest
      rw [rest, Nat.add_sub_add_right]

end IecUtils.Foundation.SequenceNumber
