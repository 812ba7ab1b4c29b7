/- Module: IecUtils/Foundation/Septets
   source: none (groups of seven bits in a sequence of octets)
   digest: Binary digits of a number; octets hold their septets from the lowest bits up, and give them one by one. -/

import Mathlib.Data.List.Basic
import Mathlib.Tactic.Ring

set_option autoImplicit false
set_option relaxedAutoImplicit false

namespace IecUtils.Foundation.Septets

section Bits

/-- The last `w` binary digits, the most significant one first. -/
def bits : Nat → Nat → List Bool
  | 0, _ => []
  | w + 1, n => bits w (n / 2) ++ [decide (n % 2 = 1)]

def ofBits (bs : List Bool) : Nat := bs.foldl (fun n b => n * 2 + b.toNat) 0

@[simp] theorem length_bits (w n : Nat) : (bits w n).length = w := by
  induction w generalizing n with
  | zero => rfl
  | succ w ih => rw [bits, List.length_append, ih, List.length_singleton]

theorem bits_append (v w n : Nat) : bits (v + w) n = bits v (n / 2 ^ w) ++ bits w n := by
  induction w generalizing n with
  | zero => simp [bits]
  | succ w ih =>
    rw [← Nat.add_assoc, bits, ih, bits, List.append_assoc, Nat.div_div_eq_div_mul, Nat.pow_succ',
      Nat.mul_comm]

private theorem foldl_ofBits (bs : List Bool) (n : Nat) :
    bs.foldl (fun n b => n * 2 + b.toNat) n = n * 2 ^ bs.length + ofBits bs := by
  induction bs generalizing n with
  | nil => simp [ofBits]
  | cons b bs ih =>
    rw [ofBits, List.foldl_cons, List.foldl_cons, ih, ih (0 * 2 + b.toNat), List.length_cons]
    ring

theorem ofBits_append (as bs : List Bool) :
    ofBits (as ++ bs) = ofBits as * 2 ^ bs.length + ofBits bs := by
  rw [ofBits, List.foldl_append, foldl_ofBits]
  rfl

theorem ofBits_bits (w n : Nat) : ofBits (bits w n) = n % 2 ^ w := by
  induction w generalizing n with
  | zero =>
    rw [Nat.pow_zero, Nat.mod_one]
    rfl
  | succ w ih =>
    have last : ofBits [decide (n % 2 = 1)] = n % 2 := by
      rcases Nat.mod_two_eq_zero_or_one n with even | odd
      · rw [even]
        rfl
      · rw [odd]
        rfl
    rw [bits, ofBits_append, ih, last, List.length_singleton, Nat.pow_one, Nat.pow_succ',
      Nat.mod_mul, Nat.mul_comm, Nat.add_comm]

theorem ofBits_lt (bs : List Bool) : ofBits bs < 2 ^ bs.length := by
  induction bs with
  | nil => exact Nat.zero_lt_one
  | cons b bs ih =>
    rw [← List.singleton_append, ofBits_append, List.length_append, List.length_singleton,
      Nat.pow_add, Nat.pow_one]
    have digit : ofBits [b] ≤ 1 := by cases b <;> decide
    have scaled := Nat.mul_le_mul_right (2 ^ bs.length) digit
    omega

theorem ofBits_eq_zero (bs : List Bool) :
    ofBits bs = 0 ↔ bs = List.replicate bs.length false := by
  induction bs with
  | nil => exact ⟨fun _ => rfl, fun _ => rfl⟩
  | cons b bs ih =>
    rw [← List.singleton_append, ofBits_append, List.length_append, List.length_singleton,
      Nat.add_comm 1, List.replicate_succ, List.singleton_append, List.cons.injEq, ← ih]
    cases b with
    | false => simp [ofBits]
    | true =>
      have positive := Nat.two_pow_pos bs.length
      constructor
      · intro zero
        change 1 * 2 ^ bs.length + ofBits bs = 0 at zero
        omega
      · rintro ⟨wrong, _⟩
        cases wrong

end Bits

section Groups

def value : List Nat → Nat
  | [] => 0
  | o :: os => o + 256 * value os

/-- The lowest `k` groups of seven bits. -/
def groups : Nat → Nat → List Nat
  | 0, _ => []
  | k + 1, n => n % 128 :: groups k (n / 128)

def septets (octets : List Nat) : List Nat := groups (8 * octets.length / 7) (value octets)

theorem groups_lt (k n : Nat) : ∀ s ∈ groups k n, s < 128 := by
  induction k generalizing n with
  | zero => exact fun s none => (List.not_mem_nil none).elim
  | succ k ih => exact List.forall_mem_cons.mpr ⟨Nat.mod_lt _ (by decide), ih _⟩

theorem septets_lt (octets : List Nat) : ∀ s ∈ septets octets, s < 128 := groups_lt _ _

theorem groups_octet {k rest : Nat} (few : k < 7) (o n m : Nat) (small : rest < 2 ^ k) :
    groups ((k + 8 * (n + 1)) / 7) (rest + 2 ^ k * (o + 256 * m)) =
      (o % 2 ^ (7 - k) * 2 ^ k + rest) ::
        groups ((k + 1 + 8 * n) / 7) (o / 2 ^ (7 - k) + 2 ^ (k + 1) * m) := by
  have count : (k + 8 * (n + 1)) / 7 = (k + 1 + 8 * n) / 7 + 1 := by omega
  have cases : k = 0 ∨ k = 1 ∨ k = 2 ∨ k = 3 ∨ k = 4 ∨ k = 5 ∨ k = 6 := by omega
  rw [count, groups]
  rcases cases with rfl | rfl | rfl | rfl | rfl | rfl | rfl <;>
    simp only [Nat.reducePow, Nat.reduceSub, Nat.reduceAdd] at small ⊢ <;>
    congr 2 <;> omega

theorem groups_full {rest : Nat} (n m : Nat) (small : rest < 2 ^ 7) :
    groups ((7 + 8 * n) / 7) (rest + 2 ^ 7 * m) = rest :: groups (8 * n / 7) m := by
  have count : (7 + 8 * n) / 7 = 8 * n / 7 + 1 := by omega
  rw [count, groups]
  congr 2 <;> omega

theorem groups_add (j k n : Nat) : groups (j + k) n = groups j n ++ groups k (n / 128 ^ j) := by
  induction j generalizing n with
  | zero => simp [groups]
  | succ j ih =>
    rw [Nat.add_right_comm, groups, groups, ih, List.cons_append, Nat.div_div_eq_div_mul,
      Nat.pow_succ']

end Groups

section Packing

def worth : List Nat → Nat
  | [] => 0
  | s :: ss => s + 128 * worth ss

/-- The lowest `k` octets. -/
def octets : Nat → Nat → List Nat
  | 0, _ => []
  | k + 1, n => n % 256 :: octets k (n / 256)

/-- As many octets as the septets need, from the lowest bits up; the last one is filled up with
zeros. -/
def pack (ss : List Nat) : List Nat := octets ((7 * ss.length + 7) / 8) (worth ss)

theorem worth_lt {ss : List Nat} (range : ∀ s ∈ ss, s < 128) : worth ss < 128 ^ ss.length := by
  induction ss with
  | nil => exact Nat.zero_lt_one
  | cons s ss ih =>
    obtain ⟨now, later⟩ := List.forall_mem_cons.mp range
    have rest := ih later
    rw [worth, List.length_cons, Nat.pow_succ']
    omega

theorem groups_worth {ss : List Nat} (range : ∀ s ∈ ss, s < 128) :
    groups ss.length (worth ss) = ss := by
  induction ss with
  | nil => rfl
  | cons s ss ih =>
    obtain ⟨now, later⟩ := List.forall_mem_cons.mp range
    rw [worth, List.length_cons, groups, Nat.add_mul_mod_self_left, Nat.mod_eq_of_lt now,
      Nat.add_mul_div_left _ _ (by decide), Nat.div_eq_of_lt now, Nat.zero_add, ih later]

@[simp] theorem length_octets (k n : Nat) : (octets k n).length = k := by
  induction k generalizing n with
  | zero => rfl
  | succ k ih => rw [octets, List.length_cons, ih]

theorem octets_lt (k n : Nat) : ∀ o ∈ octets k n, o < 256 := by
  induction k generalizing n with
  | zero => exact fun o none => (List.not_mem_nil none).elim
  | succ k ih => exact List.forall_mem_cons.mpr ⟨Nat.mod_lt _ (by decide), ih _⟩

theorem pack_lt (ss : List Nat) : ∀ o ∈ pack ss, o < 256 := octets_lt _ _

theorem value_octets {k n : Nat} (fits : n < 256 ^ k) : value (octets k n) = n := by
  induction k generalizing n with
  | zero =>
    have zero : n = 0 := by simpa using fits
    rw [zero]
    rfl
  | succ k ih =>
    have less : n / 256 < 256 ^ k := by
      rwa [Nat.div_lt_iff_lt_mul (by decide), ← Nat.pow_succ]
    rw [octets, value, ih less, Nat.mod_add_div]

theorem value_pack {ss : List Nat} (range : ∀ s ∈ ss, s < 128) : value (pack ss) = worth ss := by
  apply value_octets
  calc worth ss < 128 ^ ss.length := worth_lt range
    _ = 2 ^ (7 * ss.length) := by rw [Nat.pow_mul]
    _ ≤ 2 ^ (8 * ((7 * ss.length + 7) / 8)) := Nat.pow_le_pow_right (by decide) (by omega)
    _ = 256 ^ ((7 * ss.length + 7) / 8) := by rw [Nat.pow_mul]

theorem septets_pack {ss : List Nat} (range : ∀ s ∈ ss, s < 128) :
    septets (pack ss) = ss ++ if ss.length % 8 = 7 then [0] else [] := by
  have past : worth ss / 128 ^ ss.length = 0 := Nat.div_eq_of_lt (worth_lt range)
  have size : (7 * ss.length + 7) / 8 = 7 * (ss.length / 8) + ss.length % 8 := by omega
  rw [septets, value_pack range, pack, length_octets, size]
  split
  · rename_i full
    rw [show 8 * (7 * (ss.length / 8) + ss.length % 8) / 7 = ss.length + 1 by omega, groups_add,
      groups_worth range, past]
    rfl
  · rw [show 8 * (7 * (ss.length / 8) + ss.length % 8) / 7 = ss.length by omega, groups_worth range,
      List.append_nil]

end Packing

end IecUtils.Foundation.Septets
