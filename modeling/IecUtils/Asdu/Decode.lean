/- Module: IecUtils/Asdu/Decode
   source: print_asdu of scripts/asduconv, struct iec_unit_id of ieclink/iec104_types.h
   digest: A printed line is read as a unit: its cause of transmission, its address and its objects. -/

import IecUtils.Asdu.Limits

set_option autoImplicit false
set_option relaxedAutoImplicit false

namespace IecUtils.Asdu.Decode

open IecUtils.Foundation.Hex
open IecUtils.Foundation.Grouping
open IecUtils.Asdu.Encoding
open IecUtils.Asdu.Assembler
open IecUtils.Asdu.Readback
open IecUtils.Asdu.Limits (vsq vsq_asduHex head_two count_of_room)

section Reading

/-- The type with a code that `asduconv` writes. -/
def typeOf (code : Nat) : Option AsduType :=
  if code = 1 then some .spNa
  else if code = 13 then some .meNc
  else if code = 30 then some .spTb
  else if code = 36 then some .meTf
  else none

/-- What a station reads out of a line. -/
structure Telegram where
  cause : Nat
  objects : List Object
  deriving DecidableEq, Repr

/-- The fields of `struct iec_unit_id`, then the objects they announce. -/
def readLine (mode : FloatFunc) (line : List Char) : Option Telegram :=
  (typeOf (number (line.take 2))).bind fun type =>
    let cause := littleEndian ((line.drop 4).take 4)
    let ca := littleEndian ((line.drop 8).take 4)
    (readAsdu mode
      { asduType := type
        asduCount := vsq line % 128
        asduAddr := ca
        objAddr := 0
        sq := 128 ≤ vsq line
        data := line.drop 12 }).map (Telegram.mk cause)

end Reading

section Header

theorem typeOf_code (type : AsduType) : typeOf type.code = some type := by
  cases type <;> rfl

theorem code_of_typeOf {code : Nat} {type : AsduType} (known : typeOf code = some type) :
    type.code = code := by
  unfold typeOf at known
  split at known
  · rename_i here
    rw [← Option.some.inj known, here]
    rfl
  split at known
  · rename_i here
    rw [← Option.some.inj known, here]
    rfl
  split at known
  · rename_i here
    rw [← Option.some.inj known, here]
    rfl
  split at known
  · rename_i here
    rw [← Option.some.inj known, here]
    rfl
  · cases known

theorem number_int2hex_one {n : Nat} (small : n < 256) : number (int2hex n 1) = n := by
  rw [int2hex_of_lt (by decide) (by omega)]
  have pair : reversePairs 1 (digits (2 * 1) n) = digits 2 n := by
    simp [reversePairs, digits]
  rw [pair, number_digits_of_lt (by omega)]

variable {mode : FloatFunc}

theorem objAddr_unread (v : Vars Nat) (objAddr : Nat) :
    readAsdu mode { v with objAddr := objAddr } = readAsdu mode v := rfl

theorem readLine_asduHex {v : Vars Nat} {cot : Nat} (cause : cot < 2 ^ 16)
    (station : v.asduAddr < 2 ^ 16) (few : v.asduCount < 128) :
    readLine mode (asduHex (numeric mode) cot (some v)) =
      (readAsdu mode v).map (Telegram.mk cot) := by
  have code : v.asduType.code < 256 := by
    cases v.asduType <;> decide
  have octet : vsq (asduHex (numeric mode) cot (some v)) =
      (if v.sq then 1 else 0) * 128 + v.asduCount := by
    rw [vsq_asduHex, head_two.1]
    split <;> omega
  have line : asduHex (numeric mode) cot (some v) =
      int2hex v.asduType.code 1 ++
        (int2hex ((if v.sq then 1 else 0) * 128 + v.asduCount) 1 ++
          (int2hex cot 2 ++ (addrHex (numeric mode) v.asduAddr 2 ++ v.data))) := by
    simp only [asduHex, List.append_assoc]
  have sizes : ∀ (n : Int) (k : Nat), (int2hex n k).length = 2 * k := length_int2hex
  have two : (int2hex cot 2).length = 4 := sizes _ _
  have four : (addrHex (numeric mode) v.asduAddr 2).length = 4 := length_addrHex _ _ _
  have first : (asduHex (numeric mode) cot (some v)).take 2 = int2hex v.asduType.code 1 := by
    rw [line]
    exact List.take_left' (sizes _ _)
  have second : (asduHex (numeric mode) cot (some v)).drop 4 =
      int2hex cot 2 ++ (addrHex (numeric mode) v.asduAddr 2 ++ v.data) := by
    rw [line, ← List.append_assoc]
    exact List.drop_left' (by rw [List.length_append, sizes, sizes])
  have third : (asduHex (numeric mode) cot (some v)).drop 8 =
      addrHex (numeric mode) v.asduAddr 2 ++ v.data := by
    have split := congrArg (List.drop 4) second
    rw [List.drop_drop, List.drop_left' two] at split
    exact split
  have last : (asduHex (numeric mode) cot (some v)).drop 12 = v.data := by
    have split := congrArg (List.drop 4) third
    rw [List.drop_drop, List.drop_left' four] at split
    exact split
  have address : littleEndian (addrHex (numeric mode) v.asduAddr 2) = v.asduAddr :=
    littleEndian_int2hex (by decide) (by omega)
  unfold readLine
  rw [first, number_int2hex_one code, typeOf_code, Option.bind_some, second, third, last,
    List.take_left' two, List.take_left' four, address,
    littleEndian_int2hex (by decide) (by omega), octet]
  dsimp only
  congr 1
  rw [← objAddr_unread v 0]
  congr 1
  ext1
  · rfl
  · dsimp only
    split <;> omega
  · rfl
  · rfl
  · dsimp only
    cases v.sq
    · simp
      omega
    · simp
  · rfl

end Header

section Lines

variable {mode : FloatFunc}

/-- The lines `asduconv` prints for records of the four types in this order. -/
def printed (mode : FloatFunc) (cot : Nat) (sorted : List (Entry Nat Body)) : List (List Char) :=
  (transformAsdu (numeric mode) (sorted.map some)).map (asduHex (numeric mode) cot)

/-- No 128 elements of one octet stand in a row: the count of a run has seven bits. -/
def ShortRuns (mode : FloatFunc) (es : List (Entry Nat Body)) : Prop :=
  ∀ e ∈ es, width mode e.type = 2 →
    ∃ k < 128, ∀ e' ∈ es, e'.ca = e.ca → e'.type = e.type → e'.oa ≠ e.oa + k

theorem width_two_or (mode : FloatFunc) (type : AsduType) :
    width mode type = 2 ∨ 10 ≤ width mode type := by
  cases type <;> cases mode <;> decide

theorem sequential_groups (es : List (Entry Nat Body)) :
    ∀ g ∈ (division (numeric mode)).groups es, Sequential g :=
  groups_forall (Q := fun _ => True) (fun e _ => sequential_start e)
    (fun _ _ _ sequential _ grown => sequential_grow sequential grown) fun _ _ => trivial

theorem mem_of_group {es : List (Entry Nat Body)} {g : Portion Nat Body}
    (member : g ∈ (division (numeric mode)).groups es) : ∀ e ∈ g.members, e ∈ es := by
  intro e inside
  rw [← division_members (F := numeric mode) es]
  exact List.mem_flatMap.mpr ⟨g, member, inside⟩

theorem count_of_shortRuns {es : List (Entry Nat Body)} (short : ShortRuns mode es)
    {g : Portion Nat Body} (member : g ∈ (division (numeric mode)).groups es) :
    g.count < 128 := by
  have room := count_of_room (groups_size es g member)
  by_cases run : g.sq = true
  · by_contra long
    have narrow : width mode g.first.type = 2 := by
      refine (width_two_or mode g.first.type).resolve_right fun wide => ?_
      have size := groups_size es g member
      have most := Nat.mul_le_mul_left g.count wide
      rw [Portion.size, if_pos run, maxData] at size
      change 6 + g.count * width mode g.first.type ≤ 498 at size
      omega
    obtain ⟨k, small, gap⟩ := short g.first (mem_of_group member _ List.mem_cons_self) narrow
    have sequential := sequential_groups es g member
    obtain ⟨addresses, _⟩ := sequential.run (.inl run)
    have covered : g.first.oa + k ∈ g.members.map Entry.oa := by
      rw [addresses, List.mem_range'_1]
      omega
    obtain ⟨e, inside, here⟩ := List.mem_map.mp covered
    exact gap e (mem_of_group member e inside) (sequential.station e inside)
      ((groups_uniform es g member).types e inside) here
  · rw [if_neg run] at room
    omega

theorem readLine_group {es : List (Entry Nat Body)} {cot : Nat} (cause : cot < 2 ^ 16)
    (range : ∀ e ∈ es, InRange e) (short : ShortRuns mode es) {g : Portion Nat Body}
    (member : g ∈ (division (numeric mode)).groups es) :
    readLine mode (asduHex (numeric mode) cot (some (g.vars (numeric mode)))) =
      some ⟨cot, g.members.map (object mode)⟩ := by
  have inside := mem_of_group member
  have first : g.first.ca < 2 ^ 16 := (range _ (inside _ List.mem_cons_self)).ca
  rw [readLine_asduHex cause first (count_of_shortRuns short member),
    readAsdu_group (groups_uniform es g member) (sequential_groups es g member)
      fun e here => range e (inside e here)]
  rfl

/-- What is printed for some records is read as them, each once and in order, under the cause
it was printed with. -/
theorem readLine_printed {es : List (Entry Nat Body)} {cot : Nat} (some : es ≠ [])
    (cause : cot < 2 ^ 16) (range : ∀ e ∈ es, InRange e) (short : ShortRuns mode es) :
    ∃ units : List Telegram, (printed mode cot es).map (readLine mode) = units.map Option.some ∧
      (∀ u ∈ units, u.cause = cot) ∧ units.flatMap Telegram.objects = es.map (object mode) := by
  have records : (es.map Option.some).reduceOption = es := by
    simp [List.reduceOption]
  refine ⟨((division (numeric mode)).groups es).map fun g =>
    ⟨cot, g.members.map (object mode)⟩, ?_, ?_, ?_⟩
  · rw [printed, transformAsdu_eq, records, if_neg some, List.map_map, List.map_map, List.map_map]
    apply List.map_congr_left
    intro g member
    exact readLine_group cause range short member
  · intro u member
    obtain ⟨g, _, rfl⟩ := List.mem_map.mp member
    rfl
  · rw [List.flatMap_map, ← List.map_flatMap, division_members]

end Lines

end IecUtils.Asdu.Decode
