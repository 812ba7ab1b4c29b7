/- Module: IecUtils/Asdu/Measured
   source: indexchr, float2hex and int2hex of scripts/asduconv
   digest: The renderings of printf %a for the x87 format, and the single precision numbers made of them. -/

import IecUtils.Asdu.Encoding
import Mathlib.Data.List.TakeWhile

set_option autoImplicit false
set_option relaxedAutoImplicit false

namespace IecUtils.Asdu.Measured

open IecUtils.Foundation.Hex
open IecUtils.Asdu.Encoding

section Rendering

def lowerDigit (n : Nat) : Char :=
  ['0', '1', '2', '3', '4', '5', '6', '7', '8', '9', 'a', 'b', 'c', 'd', 'e', 'f'].getD n '0'

/-- What `%a` prints of a number other than zero: a hex digit with its highest bit set, more
digits, and the power of two. -/
structure Rendering where
  negative : Bool
  lead : Nat
  rest : List Nat
  exponent : Int
  leading : 8 ≤ lead
  hex : ∀ d ∈ lead :: rest, d < 16

def exponentText (e : Int) : List Char := (if e < 0 then '-' else '+') :: Nat.toDigits 10 e.natAbs

/-- The digits behind the radix character, which stands only in front of digits. -/
def fraction (radix : Char) (rest : List Nat) : List Char :=
  if rest = [] then [] else radix :: rest.map lowerDigit

def Rendering.text (radix : Char) (r : Rendering) : List Char :=
  (if r.negative then ['-'] else []) ++ '0' :: 'x' :: lowerDigit r.lead ::
    (fraction radix r.rest ++ 'p' :: exponentText r.exponent)

def hexNumber (ds : List Nat) : Nat := ds.foldl (fun n d => n * 16 + d) 0

/-- The significand as an integer of 24 bits: the number `lead.rest` in units of its twentieth
binary place, less what is behind that place. -/
def Rendering.significand (r : Rendering) : Nat :=
  hexNumber (r.lead :: r.rest) * 2 ^ 20 / 16 ^ r.rest.length

/-- The bits of a single precision number: sign, biased exponent, and a significand without
its highest bit. -/
def single (negative : Bool) (biased significand : Nat) : Nat :=
  (if negative then 2 ^ 31 else 0) + biased * 2 ^ 23 + (significand - 2 ^ 23)

end Rendering

section Digits

theorem lowerDigit_plain {d : Nat} (small : d < 16) :
    indexchr (lowerDigit d) = d ∧ lowerDigit d ≠ ',' ∧ lowerDigit d ≠ 'p' ∧ lowerDigit d ≠ 'x' ∧
      lowerDigit d ≠ '-' := by
  revert d
  decide

/-- The first `j` digits at the places from `j - 1` down. -/
def places : List Nat → Nat → Nat
  | [], _ => 0
  | _ :: _, 0 => 0
  | d :: ds, j + 1 => d * 16 ^ j + places ds j

theorem significandLoop_digits {ds : List Nat} (hex : ∀ d ∈ ds, d < 16) (tail : List Char) (j : Nat)
    (sum : Int) :
    significandLoop (ds.map lowerDigit ++ 'p' :: tail) j sum = sum + places ds j := by
  induction ds generalizing j sum with
  | nil =>
    cases j with
    | zero => simp [significandLoop, places]
    | succ j => simp [significandLoop, places]
  | cons d ds ih =>
    obtain ⟨now, later⟩ := List.forall_mem_cons.mp hex
    obtain ⟨value, comma, p, _, _⟩ := lowerDigit_plain now
    cases j with
    | zero => simp [significandLoop, places]
    | succ j =>
      rw [List.map_cons, List.cons_append, significandLoop, if_neg comma, if_neg p, ih later, value,
        places]
      push_cast
      ring

private theorem foldl_hexNumber (ds : List Nat) (n : Nat) :
    ds.foldl (fun n d => n * 16 + d) n = n * 16 ^ ds.length + hexNumber ds := by
  induction ds generalizing n with
  | nil => simp [hexNumber]
  | cons d ds ih =>
    rw [hexNumber, List.foldl_cons, List.foldl_cons, ih, ih (0 * 16 + d), List.length_cons]
    ring

theorem hexNumber_cons (d : Nat) (ds : List Nat) :
    hexNumber (d :: ds) = d * 16 ^ ds.length + hexNumber ds := by
  rw [hexNumber, List.foldl_cons, foldl_hexNumber]
  ring

theorem hexNumber_lt {ds : List Nat} (hex : ∀ d ∈ ds, d < 16) : hexNumber ds < 16 ^ ds.length := by
  induction ds with
  | nil => exact Nat.one_pos
  | cons d ds ih =>
    obtain ⟨now, later⟩ := List.forall_mem_cons.mp hex
    have rest := ih later
    have lead : (d + 1) * 16 ^ ds.length ≤ 16 * 16 ^ ds.length :=
      Nat.mul_le_mul_right _ (by omega)
    rw [hexNumber_cons, List.length_cons, Nat.pow_succ']
    rw [Nat.add_mul, Nat.one_mul] at lead
    omega

theorem places_eq {ds : List Nat} (hex : ∀ d ∈ ds, d < 16) (j : Nat) :
    places ds j = hexNumber ds * 16 ^ j / 16 ^ ds.length := by
  induction ds generalizing j with
  | nil => simp [places, hexNumber]
  | cons d ds ih =>
    obtain ⟨now, later⟩ := List.forall_mem_cons.mp hex
    cases j with
    | zero =>
      rw [Nat.pow_zero, Nat.mul_one, Nat.div_eq_of_lt (hexNumber_lt hex)]
      rfl
    | succ j =>
      have unit : 0 < 16 ^ ds.length := Nat.pow_pos (by decide)
      have split : hexNumber (d :: ds) * 16 ^ (j + 1) =
          16 * (hexNumber ds * 16 ^ j + d * 16 ^ j * 16 ^ ds.length) := by
        rw [hexNumber_cons]
        ring
      rw [places, ih later, split, List.length_cons, Nat.pow_succ' (n := ds.length),
        Nat.mul_div_mul_left _ _ (by decide), Nat.add_mul_div_right _ _ unit, Nat.add_comm]

theorem Rendering.significand_eq (r : Rendering) : r.significand = places (r.lead :: r.rest) 6 := by
  have unit : hexNumber (r.lead :: r.rest) * 16 ^ 6 =
      16 * (hexNumber (r.lead :: r.rest) * 2 ^ 20) := by omega
  rw [places_eq r.hex, unit, List.length_cons, Nat.pow_succ' (n := r.rest.length),
    Nat.mul_div_mul_left _ _ (by decide), Rendering.significand]

theorem Rendering.significand_bounds (r : Rendering) :
    2 ^ 23 ≤ r.significand ∧ r.significand < 2 ^ 24 := by
  have lead := r.leading
  obtain ⟨small, rest⟩ := List.forall_mem_cons.mp r.hex
  have below : places r.rest 5 < 16 ^ 5 := by
    rw [places_eq rest, Nat.div_lt_iff_lt_mul (Nat.pow_pos (by decide)), Nat.mul_comm (16 ^ 5)]
    exact Nat.mul_lt_mul_of_pos_right (hexNumber_lt rest) (by decide)
  rw [r.significand_eq, places]
  omega

end Digits

section Parts

variable {r : Rendering} {radix : Char}

theorem behind_first {c : Char} {front : List Char} (free : c ∉ front) (tail : List Char) :
    behind c (front ++ c :: tail) = tail := by
  have first : ∀ a ∈ front, decide (a ≠ c) = true := by
    intro a member
    simp only [ne_eq, decide_not, Bool.not_eq_true', decide_eq_false_iff_not]
    rintro rfl
    exact free member
  rw [behind, if_pos (by simp), List.dropWhile_append_of_pos first]
  simp

theorem signed_exponentText (e : Int) : signed (exponentText e) = e := by
  have digits : decimal (Nat.toDigits 10 e.natAbs) = e.natAbs := by
    have all : ∀ c ∈ Nat.toDigits 10 e.natAbs, c.isDigit = true :=
      fun c member => Nat.isDigit_of_mem_toDigits (by decide) (by decide) member
    rw [decimal, List.takeWhile_eq_self_iff.mpr all]
    exact Nat.ofDigitChars_toDigits (by decide) (by decide)
  unfold exponentText
  split
  · rw [signed, digits]
    omega
  · rw [signed, digits]
    omega

def Rendering.mantissa (radix : Char) (r : Rendering) : List Char :=
  lowerDigit r.lead :: fraction radix r.rest

theorem mem_fraction {c : Char} (member : c ∈ r.mantissa radix) :
    c = radix ∨ ∃ d < 16, c = lowerDigit d := by
  obtain ⟨lead, rest⟩ := List.forall_mem_cons.mp r.hex
  rcases List.mem_cons.mp member with rfl | inside
  · exact .inr ⟨r.lead, lead, rfl⟩
  · unfold fraction at inside
    split at inside
    · cases inside
    · rcases List.mem_cons.mp inside with rfl | digit
      · exact .inl rfl
      · obtain ⟨d, within, rfl⟩ := List.mem_map.mp digit
        exact .inr ⟨d, rest d within, rfl⟩

theorem behind_p (plain : radix ≠ 'p') : behind 'p' (r.text radix) = exponentText r.exponent := by
  have whole : r.text radix =
      ((if r.negative then ['-'] else []) ++ '0' :: 'x' :: r.mantissa radix) ++
        'p' :: exponentText r.exponent := by
    simp [Rendering.text, Rendering.mantissa]
  rw [whole]
  apply behind_first
  rw [List.mem_append, not_or]
  constructor
  · split <;> decide
  · simp only [List.mem_cons, not_or]
    refine ⟨by decide, by decide, ?_⟩
    intro member
    rcases mem_fraction (r := r) member with same | ⟨d, small, same⟩
    · exact plain same.symm
    · exact (lowerDigit_plain small).2.2.1 same.symm

theorem behind_x : behind 'x' (r.text radix) =
    lowerDigit r.lead :: (fraction radix r.rest ++ 'p' :: exponentText r.exponent) := by
  have whole : r.text radix = ((if r.negative then ['-'] else []) ++ ['0']) ++ 'x' ::
      lowerDigit r.lead :: (fraction radix r.rest ++ 'p' :: exponentText r.exponent) := by
    simp [Rendering.text]
  rw [whole]
  apply behind_first
  split <;> decide

theorem head_text : (r.text radix).head? = some '-' ↔ r.negative = true := by
  unfold Rendering.text
  cases r.negative <;> simp

theorem text_ne_zero : r.text radix ≠ ['0', 'x', '0', 'p', '+', '0'] := by
  have lead := r.leading
  obtain ⟨small, _⟩ := List.forall_mem_cons.mp r.hex
  have differs : lowerDigit r.lead ≠ '0' := by
    have value := (lowerDigit_plain small).1
    intro zero
    rw [zero] at value
    have none : indexchr '0' = 0 := by decide
    omega
  intro same
  unfold Rendering.text at same
  cases sign : r.negative with
  | true => simp [sign] at same
  | false =>
    simp only [sign, Bool.false_eq_true, if_false, List.nil_append, List.cons.injEq] at same
    exact differs same.2.2.1

theorem floatBits_eq (plain : radix ≠ 'p') {sum : Int}
    (loop : significandLoop (lowerDigit r.lead :: (fraction radix r.rest ++
      'p' :: exponentText r.exponent)) 6 0 = sum) :
    floatBits (r.text radix) =
      (if r.negative then 2 ^ 31 else 0) + (r.exponent + 130) * 2 ^ 23 + (sum - 2 ^ 23) := by
  unfold floatBits
  simp only [behind_p plain, behind_x, signed_exponentText, head_text, loop]
  ring

end Parts

section Comma

theorem significandLoop_comma (r : Rendering) :
    significandLoop (lowerDigit r.lead :: (fraction ',' r.rest ++ 'p' :: exponentText r.exponent))
      6 0 = r.significand := by
  obtain ⟨lead, rest⟩ := List.forall_mem_cons.mp r.hex
  obtain ⟨value, comma, p, _, _⟩ := lowerDigit_plain lead
  rw [significandLoop, if_neg comma, if_neg p, value, r.significand_eq, places]
  unfold fraction
  split
  · rename_i none
    have loop := @significandLoop_digits [] (by simp) (exponentText r.exponent) 5
    simp only [List.map_nil, List.nil_append] at loop ⊢
    rw [loop, none]
    push_cast
    ring
  · rw [List.cons_append, significandLoop, if_pos rfl, significandLoop_digits rest]
    push_cast
    ring

/-- For every rendering with a comma of a number in the range of single precision, `float2hex`
gives the octets of the single precision number with that sign and exponent and with the
significand cut off behind 24 bits, the least significant octet first. -/
theorem float2hex_single (r : Rendering) (least : -126 ≤ r.exponent + 3)
    (most : r.exponent + 3 ≤ 127) :
    float2hex .one (r.text ',') =
      reversePairs 4 (digits 8 (single r.negative (r.exponent + 130).toNat r.significand)) := by
  obtain ⟨low, high⟩ := r.significand_bounds
  have bits : floatBits (r.text ',') =
      (single r.negative (r.exponent + 130).toNat r.significand : Nat) := by
    have sum := floatBits_eq (by decide) (significandLoop_comma r)
    unfold single
    cases sign : r.negative with
    | true =>
      rw [sign, if_pos rfl] at sum
      rw [sum, if_pos rfl]
      push_cast
      omega
    | false =>
      rw [sign, if_neg Bool.false_ne_true] at sum
      rw [sum, if_neg Bool.false_ne_true]
      push_cast
      omega
  have small : single r.negative (r.exponent + 130).toNat r.significand < 256 ^ 4 := by
    unfold single
    cases r.negative with
    | true =>
      simp only [if_true]
      omega
    | false =>
      simp only [Bool.false_eq_true, if_false]
      omega
  rw [float2hex, if_neg text_ne_zero, bits, int2hex_of_lt (by decide) small]

/-- The rendering of 1.0625, which is `0x8,8p-3`. -/
def seventeenSixteenths : Rendering where
  negative := false
  lead := 8
  rest := [8]
  exponent := -3
  leading := by decide
  hex := by decide

theorem float2hex_seventeenSixteenths :
    float2hex .one (seventeenSixteenths.text ',') = ['0', '0', '0', '0', '8', '8', '3', 'F'] :=
  (float2hex_single seventeenSixteenths (by decide) (by decide)).trans (by decide)

end Comma

section Point

theorem significandLoop_point (r : Rendering) (some : r.rest ≠ []) :
    significandLoop (lowerDigit r.lead :: (fraction '.' r.rest ++ 'p' :: exponentText r.exponent))
      6 0 = r.lead * 16 ^ 5 - 16 ^ 4 + places r.rest 4 := by
  obtain ⟨lead, rest⟩ := List.forall_mem_cons.mp r.hex
  obtain ⟨value, comma, p, _, _⟩ := lowerDigit_plain lead
  have point : indexchr '.' = -1 := by decide
  rw [significandLoop, if_neg comma, if_neg p, value, fraction, if_neg some, List.cons_append,
    significandLoop, if_neg (by decide), if_neg (by decide), point, significandLoop_digits rest]
  ring

theorem places_succ {ds : List Nat} (hex : ∀ d ∈ ds, d < 16) (j : Nat) :
    places ds j = places ds (j + 1) / 16 := by
  rw [places_eq hex, places_eq hex, Nat.pow_succ, ← Nat.mul_assoc, Nat.div_div_eq_div_mul,
    Nat.mul_comm _ 16, Nat.mul_comm _ 16, Nat.mul_div_mul_left _ _ (by decide)]

theorem places_lt {ds : List Nat} (hex : ∀ d ∈ ds, d < 16) (j : Nat) : places ds j < 16 ^ j := by
  rw [places_eq hex, Nat.div_lt_iff_lt_mul (Nat.pow_pos (by decide)), Nat.mul_comm (16 ^ j)]
  exact Nat.mul_lt_mul_of_pos_right (hexNumber_lt hex) (Nat.pow_pos (by decide))

def Rendering.Extended (r : Rendering) : Prop := -16382 ≤ r.exponent + 3 ∧ r.exponent + 3 ≤ 16383

/-- What `int2hex` prints of a number over four bytes: its first eight digits. -/
def printed (val : Int) : Nat := head 8 (if val < 0 then (val % 2 ^ 64).toNat else val.toNat)

theorem int2hex_inj (a b : Int) : int2hex a 4 = int2hex b 4 ↔ printed a = printed b := by
  rw [int2hex_eq, int2hex_eq]
  exact reversePairs_padded_inj 4 _ _

theorem printed_negative {val : Int} (low : -2 ^ 60 ≤ val) (negative : val < 0) :
    (printed val : Int) = val / 2 ^ 32 + 2 ^ 32 := by
  have wide : size (val % 2 ^ 64).toNat = 16 := size_eq (w := 15) (by omega) (by omega)
  rw [printed, if_pos negative, head, wide]
  omega

theorem printed_natural {val : Int} (natural : 0 ≤ val) (small : val < 2 ^ 40) :
    (printed val : Int) =
      if val < 2 ^ 32 then val else if val < 2 ^ 36 then val / 2 ^ 4 else val / 2 ^ 8 := by
  rw [printed, if_neg (by omega), head]
  split
  · have short := (size_le_iff (n := val.toNat) (w := 8) (by decide)).mpr (by omega)
    rw [show size val.toNat - 8 = 0 by omega]
    omega
  · split
    · rw [size_eq (w := 8) (by omega) (by omega)]
      omega
    · rw [size_eq (w := 9) (by omega) (by omega)]
      omega

/-- Numbers whose distance is that of the two sums are printed alike if and only if both are
negative and agree above their last 32 bits. -/
theorem printed_eq_iff {a b : Int} (low : -2 ^ 40 ≤ b) (high : a < 2 ^ 40) (near : a ≤ b + 2 ^ 20)
    (far : b + 2 ^ 16 ≤ a) : printed b = printed a ↔ a < 0 ∧ b / 2 ^ 32 = a / 2 ^ 32 := by
  rw [← Int.natCast_inj]
  rcases lt_or_ge a 0 with negative | natural
  · rw [printed_negative (by omega) negative, printed_negative (by omega) (by omega)]
    omega
  · rw [printed_natural natural high]
    rcases lt_or_ge b 0 with below | above
    · rw [printed_negative (by omega) below]
      split <;> omega
    · rw [printed_natural above (by omega)]
      split <;> split <;> omega

def Rendering.field (r : Rendering) : Int := r.exponent + 130 + if r.negative then 256 else 0

theorem floatBits_comma (r : Rendering) :
    floatBits (r.text ',') =
      r.field * 2 ^ 23 + (r.lead * 16 ^ 5 + places r.rest 5 - 2 ^ 23) := by
  have sum := floatBits_eq (by decide) (significandLoop_comma r)
  rw [sum, r.significand_eq, places, Rendering.field]
  push_cast
  cases r.negative with
  | true =>
    rw [if_pos rfl, if_pos rfl]
    ring
  | false =>
    rw [if_neg Bool.false_ne_true, if_neg Bool.false_ne_true]
    ring

theorem floatBits_point (r : Rendering) (some : r.rest ≠ []) :
    floatBits (r.text '.') =
      r.field * 2 ^ 23 + (r.lead * 16 ^ 5 - 16 ^ 4 + places r.rest 4 - 2 ^ 23) := by
  have sum := floatBits_eq (by decide) (significandLoop_point r some)
  rw [sum, Rendering.field]
  cases r.negative with
  | true =>
    rw [if_pos rfl, if_pos rfl]
    ring
  | false =>
    rw [if_neg Bool.false_ne_true, if_neg Bool.false_ne_true]
    ring

/-- The number above its last 32 bits is that of the exponent field, or one less for a point
that takes the significand below its highest bit. -/
theorem above_eq_iff {field lead x : Int} (least : 8 ≤ lead) (most : lead < 16) (low : 0 ≤ x)
    (high : x < 16 ^ 5) :
    (field * 2 ^ 23 + (lead * 16 ^ 5 - 16 ^ 4 + x / 16 - 2 ^ 23)) / 2 ^ 32 =
        (field * 2 ^ 23 + (lead * 16 ^ 5 + x - 2 ^ 23)) / 2 ^ 32 ↔
      ¬ (lead = 8 ∧ 512 ∣ field) := by
  have whole : (field * 2 ^ 23 + (lead * 16 ^ 5 + x - 2 ^ 23)) / 2 ^ 23 = field := by omega
  have part : (field * 2 ^ 23 + (lead * 16 ^ 5 - 16 ^ 4 + x / 16 - 2 ^ 23)) / 2 ^ 23 =
      if lead = 8 then field - 1 else field := by
    split <;> omega
  have shift (n : Int) : n / 2 ^ 32 = n / 2 ^ 23 / 512 := by omega
  rw [shift, shift, whole, part]
  split <;> omega

/-- For every rendering of the x87 format, `float2hex` gives the same with a point as with a
comma, if and only if there is no radix character, or the number is so small that only the
bits above the exponent are printed, and the point changes none of these. -/
theorem radix_irrelevant_iff (r : Rendering) (extended : r.Extended) :
    float2hex .one (r.text '.') = float2hex .one (r.text ',') ↔
      r.rest = [] ∨ r.field < 0 ∧ ¬ (r.lead = 8 ∧ 512 ∣ r.field) := by
  by_cases none : r.rest = []
  · have same : r.text '.' = r.text ',' := by simp [Rendering.text, fraction, none]
    simp [same, none]
  · obtain ⟨small, rest⟩ := List.forall_mem_cons.mp r.hex
    obtain ⟨low, high⟩ := extended
    have lead := r.leading
    have five := places_lt rest 5
    have four : places r.rest 4 = places r.rest 5 / 16 := places_succ rest 4
    have bounds : -16255 ≤ r.field ∧ r.field ≤ 16766 := by
      unfold Rendering.field
      split <;> omega
    have above := @above_eq_iff r.field r.lead (places r.rest 5) (by omega) (by omega) (by omega)
      (by omega)
    have point : floatBits (r.text '.') = r.field * 2 ^ 23 +
        (r.lead * 16 ^ 5 - 16 ^ 4 + (places r.rest 5 : Int) / 16 - 2 ^ 23) := by
      rw [floatBits_point r none, four]
      push_cast
      rfl
    have comma := floatBits_comma r
    rw [float2hex, float2hex, if_neg text_ne_zero, if_neg text_ne_zero, int2hex_inj,
      printed_eq_iff (by omega) (by omega) (by omega) (by omega), point, comma, above]
    simp only [none, false_or]
    omega

/-- The rendering of 1, which is `0x8p-3`. -/
def unit : Rendering := ⟨false, 8, [], -3, by decide, by decide⟩

theorem radix_irrelevant_unit :
    float2hex .one (unit.text '.') = float2hex .one (unit.text ',') :=
  (radix_irrelevant_iff unit ⟨by decide, by decide⟩).mpr (.inl rfl)

/-- With a point 1.0625 becomes 0.998046875. -/
theorem point_changes_value :
    seventeenSixteenths.Extended ∧
      float2hex .one (seventeenSixteenths.text '.') = ['0', '0', '8', '0', '7', 'F', '3', 'F'] ∧
      float2hex .one (seventeenSixteenths.text '.') ≠
        float2hex .one (seventeenSixteenths.text ',') :=
  ⟨⟨by decide, by decide⟩, by decide, by decide⟩

end Point

end IecUtils.Asdu.Measured
