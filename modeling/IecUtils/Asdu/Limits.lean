/- Module: IecUtils/Asdu/Limits
   source: transform_asdu of scripts/asduconv, struct iec_unit_id of ieclink/iec104_types.h, IEC104_ASDU_MAX of ieclink/iecsock.h
   digest: Which inputs give lines that are too long for the link, and which give a wrong number of objects. -/

import IecUtils.Asdu.Readback
import IecUtils.Link.Frame

set_option autoImplicit false
set_option relaxedAutoImplicit false

namespace IecUtils.Asdu.Limits

open IecUtils.Foundation.Hex
open IecUtils.Foundation.Grouping
open IecUtils.Link.Frame (iec104AsduMax)
open IecUtils.Asdu.Encoding
open IecUtils.Asdu.Assembler
open IecUtils.Asdu.Readback (numeric)

variable {φ β : Type} {F : Fields φ β}

section Length

/-- A line of the digits of the largest unit that the link takes. -/
def maxLine : Nat := 2 * iec104AsduMax

/-- The most objects a line of that length can hold behind its header. -/
def most (mode : FloatFunc) (type : AsduType) (sq : Bool) : Nat :=
  if sq then (maxLine - 12 - 6) / width mode type else (maxLine - 12) / (6 + width mode type)

example : most .one .spNa false = 60 ∧ most .one .spNa true = 240 ∧ most .one .meNc false = 30 ∧
    most .one .meNc true = 48 := by decide

theorem length_asduHex (cot : Int) (v : Vars φ) :
    (asduHex F cot (some v)).length = 12 + v.data.length := by
  simp only [asduHex, List.length_append, length_int2hex, length_addrHex]

theorem size_le_iff_count (g : Portion φ β) :
    12 + g.size F.mode ≤ maxLine ↔ g.count ≤ most F.mode g.first.type g.sq := by
  obtain ⟨some, _⟩ := width_bounds F.mode g.first.type
  unfold Portion.size most maxLine iec104AsduMax
  cases g.sq with
  | true =>
    rw [if_pos rfl, if_pos rfl, Nat.le_div_iff_mul_le (by omega)]
    omega
  | false =>
    rw [if_neg Bool.false_ne_true, if_neg Bool.false_ne_true, Nat.le_div_iff_mul_le (by omega)]
    omega

theorem timed_fits {g : Portion φ β} (uniform : g.Uniform) (room : g.size F.mode ≤ maxData)
    (timed : AsduType.timed g.first.type = true) : 12 + g.size F.mode ≤ maxLine := by
  have plain : g.sq = false := by
    by_contra run
    rw [(uniform.run ((Bool.not_eq_false _).mp run)).2] at timed
    cases timed
  have widths : width F.mode g.first.type = 16 ∨ width F.mode g.first.type = 24 := by
    cases type : g.first.type with
    | spNa => rw [type] at timed; cases timed
    | meNc => rw [type] at timed; cases timed
    | spTb => exact .inl rfl
    | meTf => cases F.mode <;> decide
  simp only [Portion.size, plain, Bool.false_eq_true, if_false, maxData] at room ⊢
  unfold maxLine iec104AsduMax
  rcases widths with wide | wide <;> rw [wide] at room ⊢ <;> omega

/-- All lines fit the link, if and only if the division of the records makes no portion of
more than 60 single points or 30 measured values with an address each, nor one of more than
240 or 48 of them in sequence. -/
theorem lines_fit_iff (F : Fields φ β) (cot : Int) (lines : List (Option (Entry φ β))) :
    (∀ line ∈ (transformAsdu F lines).map (asduHex F cot), line.length ≤ maxLine) ↔
      ∀ g ∈ (division F).groups lines.reduceOption, AsduType.timed g.first.type = false →
        g.count ≤ most F.mode g.first.type g.sq := by
  have uniform := groups_uniform (F := F) lines.reduceOption
  have room := groups_size (F := F) lines.reduceOption
  have fits (g : Portion φ β) (member : g ∈ (division F).groups lines.reduceOption) :
      (asduHex F cot (some (g.vars F))).length ≤ maxLine ↔
        (AsduType.timed g.first.type = false → g.count ≤ most F.mode g.first.type g.sq) := by
    rw [length_asduHex, length_data (uniform g member), ← size_le_iff_count]
    constructor
    · exact fun short _ => short
    · intro short
      cases timed : AsduType.timed g.first.type with
      | true => exact timed_fits (uniform g member) (room g member) timed
      | false => exact short timed
  rw [transformAsdu_eq]
  split
  · rename_i empty
    rw [empty]
    have header : (asduHex F cot none).length ≤ maxLine := by
      simp only [asduHex, List.length_append, length_int2hex]
      decide
    simpa [Rule.groups] using header
  · rw [List.map_map, List.forall_mem_map]
    exact forall₂_congr fits

/-- Single points of one station, their addresses `step` apart. -/
def points (step n : Nat) : List (Option (Entry Nat Body)) :=
  (List.range n).map fun i => some ⟨1, step * i + 1, .spNa, ⟨['1'], [], [], []⟩⟩

/-- With 61 addresses of their own the line is two octets too long. -/
theorem line_too_long :
    ¬ ∀ line ∈ (transformAsdu (numeric .one) (points 2 61)).map (asduHex (numeric .one) 3),
      line.length ≤ maxLine := by
  decide +kernel

end Length

section Qualifier

def vsq (line : List Char) : Nat := number ((line.drop 2).take 2)

def Holds (mode : FloatFunc) (n : Nat) : Option (Vars φ) → Prop
  | none => n = 0
  | some v => v.data.length =
      if v.sq then 6 + n * width mode v.asduType else n * (6 + width mode v.asduType)

/-- The bit `sq` of `struct iec_unit_id` says how DATA is laid out, and `num` how many
elements it holds. -/
def Described (F : Fields φ β) (cot : Int) (p : Option (Vars φ)) : Prop :=
  ∃ n, Holds F.mode n p ∧ vsq (asduHex F cot p) % 128 = n ∧
    vsq (asduHex F cot p) / 128 = (if (p.map Vars.sq).getD false then 1 else 0) ∧ 1 ≤ n ∧ n ≤ 127

theorem vsq_asduHex (cot : Int) (v : Vars φ) :
    vsq (asduHex F cot (some v)) = head 2 ((if v.sq then 1 else 0) * 128 + v.asduCount) := by
  have pair (n : Nat) : int2hex n 1 = digits 2 (head 2 n) := by
    have natural : ¬ (n : Int) < 0 := by omega
    rw [int2hex_eq, formatX, if_neg natural, Int.toNat_natCast, ← take_padded]
    rfl
  have octet : ((if v.sq then 1 else 0) * 128 + v.asduCount : Int) =
      ((if v.sq then 1 else 0) * 128 + v.asduCount : Nat) := by
    cases v.sq <;> simp
  have second : ((asduHex F cot (some v)).drop 2).take 2 =
      digits 2 (head 2 ((if v.sq then 1 else 0) * 128 + v.asduCount)) := by
    simp only [asduHex, List.append_assoc]
    rw [List.drop_left' (by rw [length_int2hex]), octet, pair, List.take_left' (length_digits _ _)]
  rw [vsq, second, number_digits_of_lt (head_lt _ _)]

theorem head_two {n : Nat} : (n < 256 → head 2 n = n) ∧
    (256 ≤ n → n < 4096 → head 2 n = n / 16) := by
  constructor
  · intro short
    have digits : size n ≤ 2 := (size_le_iff (by decide)).mpr short
    rw [head, Nat.sub_eq_zero_of_le digits, Nat.pow_zero, Nat.div_one]
  · intro low high
    rw [head, size_eq (w := 2) low high]
    rfl

theorem holds_vars {g : Portion φ β} (uniform : g.Uniform) (n : Nat) :
    Holds F.mode n (some (g.vars F)) ↔ n = g.count := by
  obtain ⟨some, _⟩ := width_bounds F.mode g.first.type
  rw [Holds, length_data uniform, Portion.size, vars_sq, vars_asduType]
  cases g.sq with
  | true =>
    rw [if_pos rfl, if_pos rfl]
    constructor
    · intro same
      exact (Nat.eq_of_mul_eq_mul_right (by omega) (Nat.add_left_cancel same)).symm
    · intro same
      rw [same]
  | false =>
    rw [if_neg Bool.false_ne_true, if_neg Bool.false_ne_true]
    constructor
    · intro same
      exact (Nat.eq_of_mul_eq_mul_right (by omega) same).symm
    · intro same
      rw [same]

theorem count_of_room {g : Portion φ β} (room : g.size F.mode ≤ maxData) :
    1 ≤ g.count ∧ g.count ≤ if g.sq then 246 else 62 := by
  obtain ⟨some, _⟩ := width_bounds F.mode g.first.type
  refine ⟨Nat.succ_pos _, ?_⟩
  unfold Portion.size maxData at room
  cases run : g.sq with
  | true =>
    rw [run, if_pos rfl] at room
    have narrow := Nat.mul_le_mul_left g.count some
    rw [if_pos rfl]
    omega
  | false =>
    rw [run, if_neg Bool.false_ne_true] at room
    have narrow := Nat.mul_le_mul_left g.count (Nat.add_le_add_left some 6)
    rw [if_neg Bool.false_ne_true]
    omega

theorem described_iff {g : Portion φ β} (uniform : g.Uniform) (room : g.size F.mode ≤ maxData)
    (cot : Int) : Described F cot (some (g.vars F)) ↔ (g.sq = true → g.count ≤ 127) := by
  obtain ⟨some, many⟩ := count_of_room room
  unfold Described
  simp only [holds_vars uniform, exists_eq_left, vsq_asduHex, vars_sq, vars_asduCount,
    Option.map_some, Option.getD_some]
  rcases Bool.eq_false_or_eq_true g.sq with run | run
  · simp only [run, if_true] at many ⊢
    constructor
    · exact fun said _ => said.2.2.2
    · intro short
      have bound := short trivial
      rw [head_two.1 (by omega)]
      omega
  · simp only [run, Bool.false_eq_true, if_false] at many ⊢
    rw [head_two.1 (by omega)]
    constructor
    · exact fun _ => nofun
    · intro _
      omega

/-- The second octet is right in all lines, if and only if there is a record of one of the four
types and the division makes no run of more than 127 objects. -/
theorem qualifier_right_iff (F : Fields φ β) (cot : Int) (lines : List (Option (Entry φ β))) :
    (∀ p ∈ transformAsdu F lines, Described F cot p) ↔
      lines.reduceOption ≠ [] ∧
        ∀ g ∈ (division F).groups lines.reduceOption, g.sq = true → g.count ≤ 127 := by
  have uniform := groups_uniform (F := F) lines.reduceOption
  have room := groups_size (F := F) lines.reduceOption
  rw [transformAsdu_eq]
  split
  · rename_i none
    have wrong : ¬ Described F cot .none := by
      rintro ⟨n, zero, _, _, some, _⟩
      rw [Holds] at zero
      omega
    simp [none, wrong]
  · rename_i some
    rw [List.forall_mem_map]
    simp only [ne_eq, some, not_false_eq_true, true_and]
    exact forall₂_congr fun g member => described_iff (uniform g member) (room g member) cot

/-- For 128 points in sequence `%02X` prints `100`, of which the line takes `10`. -/
theorem qualifier_of_128 :
    ¬ ∀ p ∈ transformAsdu (numeric .one) (points 1 128), Described (numeric .one) 3 p := by
  have run : ∃ p ∈ transformAsdu (numeric .one) (points 1 128),
      (p.map Vars.sq).getD false = true ∧ vsq (asduHex (numeric .one) 3 p) = 16 := by
    decide +kernel
  intro all
  obtain ⟨p, member, sequence, octet⟩ := run
  obtain ⟨_, _, _, bit, _⟩ := all p member
  rw [octet, sequence] at bit
  cases bit

end Qualifier

end IecUtils.Asdu.Limits
