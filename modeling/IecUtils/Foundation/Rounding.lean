/- Module: IecUtils/Foundation/Rounding
   source: none (binary floating point numbers without fractions)
   digest: Rounding a natural number to a count of significant bits, to the nearest and then to even. -/

import Mathlib.Algebra.Group.Nat.Defs
import Mathlib.Tactic.Common

set_option autoImplicit false
set_option relaxedAutoImplicit false

namespace IecUtils.Foundation.Rounding

/-- The distance of the numbers with `p` significant bits around `n`. -/
def spacing (p n : Nat) : Nat := 2 ^ (n.log2 + 1 - p)

/-- The number with `p` significant bits that is nearest to `n`; of two, the even one. -/
def nearest (p n : Nat) : Nat :=
  let unit := spacing p n
  let low := n / unit
  if 2 * (n % unit) < unit ∨ 2 * (n % unit) = unit ∧ low % 2 = 0 then low * unit
  else (low + 1) * unit

theorem spacing_pos (p n : Nat) : 0 < spacing p n := Nat.two_pow_pos _

theorem spacing_eq {p n e : Nat} (low : 2 ^ (p + e - 1) ≤ n) (high : n < 2 ^ (p + e))
    (some : 0 < p) : spacing p n = 2 ^ e := by
  have nonzero : n ≠ 0 := by
    have pos := Nat.two_pow_pos (p + e - 1)
    omega
  have upper : n.log2 < p + e := (Nat.log2_lt nonzero).mpr high
  have lower : p + e - 1 ≤ n.log2 := (Nat.le_log2 nonzero).mpr low
  rw [spacing]
  congr 1
  omega

theorem nearest_of_lt {p n : Nat} (some : 0 < p) (small : n < 2 ^ p) : nearest p n = n := by
  have bits : n.log2 < p := by
    by_cases zero : n = 0
    · subst zero
      exact some
    · exact (Nat.log2_lt zero).mpr small
  have one : spacing p n = 1 := by
    rw [spacing, show n.log2 + 1 - p = 0 by omega, Nat.pow_zero]
  unfold nearest
  simp only [one, Nat.mod_one, Nat.div_one, Nat.mul_one, Nat.mul_zero]
  rw [if_pos (.inl Nat.zero_lt_one)]

theorem nearest_mod (p n : Nat) : nearest p n % spacing p n = 0 := by
  unfold nearest
  simp only
  split <;> exact Nat.mul_mod_left _ _

theorem nearest_eq_self_iff (p n : Nat) : nearest p n = n ↔ n % spacing p n = 0 := by
  constructor
  · intro kept
    have multiple := nearest_mod p n
    rwa [kept] at multiple
  · intro multiple
    have pos := spacing_pos p n
    have whole := Nat.div_add_mod' n (spacing p n)
    unfold nearest
    simp only [multiple, Nat.mul_zero]
    rw [if_pos (.inl pos)]
    omega

theorem nearest_near (p n : Nat) :
    nearest p n < n + spacing p n ∧ n < nearest p n + spacing p n := by
  have pos := spacing_pos p n
  have whole := Nat.div_add_mod' n (spacing p n)
  have rest := Nat.mod_lt n pos
  unfold nearest
  simp only
  split
  · omega
  · rw [Nat.add_mul, Nat.one_mul]
    omega

theorem two_pow_log2_le_nearest {p n : Nat} (some : 0 < p) (large : 2 ^ p ≤ n) :
    2 ^ n.log2 ≤ nearest p n := by
  have nonzero : n ≠ 0 := by
    have pos := Nat.two_pow_pos p
    omega
  have bits : p ≤ n.log2 := (Nat.le_log2 nonzero).mpr large
  have parts : 2 ^ n.log2 = 2 ^ (p - 1) * spacing p n := by
    rw [spacing, ← Nat.pow_add]
    congr 1
    omega
  have low : 2 ^ (p - 1) ≤ n / spacing p n := by
    rw [Nat.le_div_iff_mul_le (spacing_pos p n), ← parts]
    exact Nat.log2_self_le nonzero
  have floor : 2 ^ n.log2 ≤ n / spacing p n * spacing p n := by
    rw [parts]
    exact Nat.mul_le_mul_right _ low
  unfold nearest
  simp only
  split
  · exact floor
  · rw [Nat.add_mul]
    omega

end IecUtils.Foundation.Rounding
