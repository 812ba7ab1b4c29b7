/- Module: IecUtils/Foundation/Hex
   source: none (numbers as digits of base sixteen)
   digest: Upper-case digits of a fixed count, what they say, and the order of their pairs. -/

import Mathlib.Data.List.Basic
import Mathlib.Tactic.Ring

set_option autoImplicit false
set_option relaxedAutoImplicit false

namespace IecUtils.Foundation.Hex

section Digits

def digit (n : Nat) : Char := if n < 10 then Char.ofNat (48 + n) else Char.ofNat (55 + n)

def value (c : Char) : Nat := if c.toNat ≤ 57 then c.toNat - 48 else c.toNat - 55

/-- The last `w` digits, the most significant one first. -/
def digits : Nat → Nat → List Char
  | 0, _ => []
  | w + 1, n => digits w (n / 16) ++ [digit (n % 16)]

def size (n : Nat) : Nat := n.log2 / 4 + 1

def padded (w n : Nat) : List Char := digits (max w (size n)) n

def number (cs : List Char) : Nat := cs.foldl (fun n c => n * 16 + value c) 0

theorem value_digit {n : Nat} (small : n < 16) : value (digit n) = n := by
  revert n
  decide

@[simp] theorem length_digits (w n : Nat) : (digits w n).length = w := by
  induction w generalizing n with
  | zero => rfl
  | succ w ih => rw [digits, List.length_append, ih, List.length_singleton]

theorem length_padded (w n : Nat) : (padded w n).length = max w (size n) := length_digits _ _

theorem digits_append (v w n : Nat) : digits (v + w) n = digits v (n / 16 ^ w) ++ digits w n := by
  induction w generalizing n with
  | zero => simp [digits]
  | succ w ih =>
    rw [← Nat.add_assoc, digits, ih, digits, List.append_assoc, Nat.div_div_eq_div_mul,
      Nat.pow_succ', Nat.mul_comm]

private theorem foldl_number (cs : List Char) (n : Nat) :
    cs.foldl (fun n c => n * 16 + value c) n = n * 16 ^ cs.length + number cs := by
  induction cs generalizing n with
  | nil => simp [number]
  | cons c cs ih =>
    rw [number, List.foldl_cons, List.foldl_cons, ih, ih (0 * 16 + value c), List.length_cons]
    ring

theorem number_append (as bs : List Char) :
    number (as ++ bs) = number as * 16 ^ bs.length + number bs := by
  rw [number, List.foldl_append, foldl_number]
  rfl

theorem number_digits (w n : Nat) : number (digits w n) = n % 16 ^ w := by
  induction w generalizing n with
  | zero =>
    rw [Nat.pow_zero, Nat.mod_one]
    rfl
  | succ w ih =>
    have last : number [digit (n % 16)] = n % 16 := by
      rw [number, List.foldl_cons, List.foldl_nil, value_digit (Nat.mod_lt _ (by decide))]
      omega
    rw [digits, number_append, ih, last, List.length_singleton, Nat.pow_one, Nat.pow_succ',
      Nat.mod_mul, Nat.mul_comm, Nat.add_comm]

theorem number_digits_of_lt {w n : Nat} (fits : n < 16 ^ w) : number (digits w n) = n := by
  rw [number_digits, Nat.mod_eq_of_lt fits]

theorem lt_pow_size (n : Nat) : n < 16 ^ size n := by
  have bits := Nat.lt_log2_self (n := n)
  have more : n.log2 + 1 ≤ 4 * size n := by
    unfold size
    omega
  calc n < 2 ^ (n.log2 + 1) := bits
    _ ≤ 2 ^ (4 * size n) := Nat.pow_le_pow_right (by decide) more
    _ = 16 ^ size n := by rw [Nat.pow_mul]

theorem size_le_iff {w n : Nat} (some : 0 < w) : size n ≤ w ↔ n < 16 ^ w := by
  constructor
  · intro short
    exact Nat.lt_of_lt_of_le (lt_pow_size n) (Nat.pow_le_pow_right (by decide) short)
  · intro fits
    by_cases zero : n = 0
    · subst zero
      exact some
    · have bits : n.log2 < 4 * w := by
        rw [Nat.log2_lt zero, Nat.pow_mul]
        exact fits
      unfold size
      omega

theorem padded_of_lt {w n : Nat} (some : 0 < w) (fits : n < 16 ^ w) : padded w n = digits w n := by
  rw [padded, Nat.max_eq_left ((size_le_iff some).mpr fits)]

theorem size_eq {w n : Nat} (low : 16 ^ w ≤ n) (high : n < 16 ^ (w + 1)) : size n = w + 1 := by
  have short := (size_le_iff (Nat.succ_pos w)).mpr high
  by_contra other
  have least := Nat.lt_of_lt_of_le (lt_pow_size n)
    (Nat.pow_le_pow_right (by decide) (by omega : size n ≤ w))
  omega

/-- The first `w` digits of a number that has at least as many. -/
def head (w n : Nat) : Nat := n / 16 ^ (size n - w)

theorem head_lt (w n : Nat) : head w n < 16 ^ w := by
  have bound := lt_pow_size n
  rw [head, Nat.div_lt_iff_lt_mul (Nat.pow_pos (by decide)), ← Nat.pow_add]
  exact Nat.lt_of_lt_of_le bound (Nat.pow_le_pow_right (by decide) (by omega))

theorem take_padded (w n : Nat) : (padded w n).take w = digits w (head w n) := by
  have parts : max w (size n) = w + (size n - w) := by omega
  rw [padded, parts, digits_append, List.take_left' (length_digits _ _)]
  rfl

end Digits

section Pairs

/-- The first `k` pairs of characters, the last of them first. -/
def reversePairs : Nat → List Char → List Char
  | 0, _ => []
  | k + 1, cs => reversePairs k (cs.drop 2) ++ cs.take 2

/-- The number that pairs of digits stand for, the least significant pair first. -/
def littleEndian : List Char → Nat
  | [] => 0
  | [_] => 0
  | a :: b :: rest => number [a, b] + 256 * littleEndian rest

theorem length_reversePairs {k : Nat} {cs : List Char} (long : 2 * k ≤ cs.length) :
    (reversePairs k cs).length = 2 * k := by
  induction k generalizing cs with
  | zero => rfl
  | succ k ih =>
    rw [reversePairs, List.length_append, ih (by rw [List.length_drop]; omega), List.length_take]
    omega

theorem reversePairs_take {k : Nat} (cs : List Char) :
    reversePairs k (cs.take (2 * k)) = reversePairs k cs := by
  induction k generalizing cs with
  | zero => rfl
  | succ k ih =>
    have rest : (cs.take (2 * (k + 1))).drop 2 = (cs.drop 2).take (2 * k) := by
      rw [List.drop_take]
      congr 1
    have first : (cs.take (2 * (k + 1))).take 2 = cs.take 2 := by
      rw [List.take_take]
      congr 1
    rw [reversePairs, rest, ih, first]
    rfl

theorem littleEndian_append {k : Nat} {as : List Char} (even : as.length = 2 * k) (bs : List Char) :
    littleEndian (as ++ bs) = littleEndian as + 256 ^ k * littleEndian bs := by
  induction as using littleEndian.induct generalizing k with
  | case1 =>
    obtain rfl : k = 0 := by simpa using even.symm
    simp [littleEndian]
  | case2 a =>
    rw [List.length_singleton] at even
    omega
  | case3 a b rest ih =>
    cases k with
    | zero => cases even
    | succ k =>
      have shorter : rest.length = 2 * k := by
        rw [List.length_cons, List.length_cons] at even
        omega
      rw [List.cons_append, List.cons_append, littleEndian, littleEndian, ih shorter]
      ring

theorem littleEndian_reversePairs {k : Nat} {cs : List Char} (size : cs.length = 2 * k) :
    littleEndian (reversePairs k cs) = number cs := by
  induction k generalizing cs with
  | zero =>
    obtain rfl := List.length_eq_zero_iff.mp size
    rfl
  | succ k ih =>
    have shorter : (cs.drop 2).length = 2 * k := by
      rw [List.length_drop]
      omega
    have pair : littleEndian (cs.take 2) = number (cs.take 2) := by
      match cs, size with
      | a :: b :: rest, _ => simp [littleEndian]
    have whole : number cs = number (cs.take 2) * 16 ^ (2 * k) + number (cs.drop 2) := by
      rw [← shorter, ← number_append, List.take_append_drop]
    rw [reversePairs, littleEndian_append (length_reversePairs (by omega)), ih shorter, pair, whole,
      Nat.pow_mul]
    ring

theorem reversePairs_padded_inj (k a b : Nat) :
    reversePairs k (padded (2 * k) a) = reversePairs k (padded (2 * k) b) ↔
      head (2 * k) a = head (2 * k) b := by
  have said (n : Nat) : littleEndian (reversePairs k (padded (2 * k) n)) = head (2 * k) n := by
    rw [← reversePairs_take, take_padded, littleEndian_reversePairs (length_digits _ _),
      number_digits_of_lt (head_lt _ _)]
  constructor
  · intro same
    rw [← said, ← said, same]
  · intro same
    rw [← reversePairs_take, take_padded, same, ← take_padded, reversePairs_take]

end Pairs

end IecUtils.Foundation.Hex
