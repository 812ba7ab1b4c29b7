/- Module: IecUtils/Sms/Shell
   source: hextoint, hextobin, get_numtype, get_number and gsmdecode of scripts/utils/sms_utils
   digest: The commands and functions with which the sms scripts take hex digits apart. -/

import IecUtils.Foundation.Builtins
import IecUtils.Foundation.Hex
import IecUtils.Foundation.Septets
import IecUtils.Foundation.Words
import Mathlib.Data.List.DropRight

set_option autoImplicit false
set_option relaxedAutoImplicit false

namespace IecUtils.Sms.Shell

open IecUtils.Foundation.Hex hiding value
open IecUtils.Foundation.Septets
open IecUtils.Foundation.Words

section Commands

variable {α : Type}

/-- `cut -b -n`; positions begin with 1, and others are an error. -/
def cutTo (n : Int) (cs : List α) : List α := if n < 1 then [] else cs.take n.toNat

/-- `cut -b n-`. -/
def cutFrom (n : Int) (cs : List α) : List α := if n < 1 then [] else cs.drop (n.toNat - 1)

/-- `cut -b m-n`. -/
def cutRange (m n : Int) (cs : List α) : List α :=
  if n < m then [] else cutFrom m (cutTo n cs)

/-- `$(..)` takes neither NUL nor the line feeds at the end. -/
def substitute (cs : List Char) : List Char :=
  (cs.filter fun c => c ≠ Char.ofNat 0).rdropWhile fun c => c = '\n'

/-- `bc` prints nothing for an empty numeral. -/
def hextoint (cs : List Char) : Option Nat := if cs = [] then none else some (number cs)

def expand : Option Nat → List Char
  | none => []
  | some n => Nat.toDigits 10 n

def hextobin (cs : List Char) : List Bool := bits 8 (number cs)

end Commands

theorem substitute_line {cs : List Char} (plain : ∀ c ∈ cs, c ≠ Char.ofNat 0 ∧ c ≠ '\n') :
    substitute (cs ++ ['\n']) = cs := by
  have present : (cs ++ ['\n']).filter (fun c => c ≠ Char.ofNat 0) = cs ++ ['\n'] := by
    refine List.filter_eq_self.mpr fun c member => decide_eq_true ?_
    rcases List.mem_append.mp member with inside | feed
    · exact (plain c inside).1
    · rw [List.mem_singleton.mp feed]
      decide
  rw [substitute, present, List.rdropWhile_concat_pos _ _ _ (by decide),
    List.rdropWhile_eq_self_iff]
  exact fun some => by simpa using (plain _ (List.getLast_mem some)).2

section Address

inductive NumType where
  | inter
  | alphanum
  | unknown
  deriving DecidableEq, Repr

def getNumtype (format : List Char) : Option NumType :=
  let ton := cutRange 2 4 (hextobin format)
  if ton = [false, false, true] then some .inter
  else if ton = [true, false, true] then some .alphanum
  else if ton = [false, false, false] then some .unknown
  else none

/-- `sed -r 's/(.)(.)/\2\1/g'`. -/
def swapPairs : List Char → List Char
  | a :: b :: cs => b :: a :: swapPairs cs
  | cs => cs

def getNumber (destaddr : List Char) : List Char :=
  let number := swapPairs destaddr
  if number.getLast? = some 'F' then number.dropLast else number

/-- One turn of the loop of `gsmdecode`, on two digits of `str`: what the escapes it appends to
`strdecode` stand for, `pos` and `rest`. -/
def gsmdecodeTurn (pos : Nat) (rest : List Bool) (str : List Char) :
    List Char × Nat × List Bool :=
  let octet := hextobin str
  let ch := cutFrom pos octet ++ rest
  let rest := cutTo (pos - 1) octet
  let strdecode := if ch = List.replicate 7 false then [] else [Char.ofNat (ofBits ch)]
  if pos + 1 = 9 then (strdecode ++ [Char.ofNat (ofBits rest)], 2, [])
  else (strdecode, pos + 1, rest)

def gsmdecodeLoop (pos : Nat) (rest : List Bool) : List Char → List Char
  | [] => []
  | [a] => (gsmdecodeTurn pos rest [a]).1
  | a :: b :: str =>
      let turn := gsmdecodeTurn pos rest [a, b]
      turn.1 ++ gsmdecodeLoop turn.2.1 turn.2.2 str

def gsmdecode (str : List Char) : List Char := gsmdecodeLoop 2 [] str ++ ['\n']

end Address

section Cuts

variable {α : Type} {as bs : List α} {n : Int}

theorem cutTo_append (size : (as.length : Int) = n) : cutTo n (as ++ bs) = as := by
  subst size
  unfold cutTo
  split
  · rename_i none
    have empty : as.length = 0 := by omega
    exact (List.length_eq_zero_iff.mp empty).symm
  · rw [Int.toNat_natCast, List.take_left]

theorem cutFrom_append (size : (as.length : Int) + 1 = n) : cutFrom n (as ++ bs) = bs := by
  subst size
  unfold cutFrom
  rw [if_neg (by omega)]
  exact List.drop_left' (by omega)

end Cuts

section Decoding

/-- The characters of septets; zeros, with which octets are filled up, are none. -/
def chars (ss : List Nat) : List Char := (ss.filter fun s => s ≠ 0).map Char.ofNat

def textOf (octets : List Nat) : List Char := chars (septets octets)

theorem chars_append (ss ts : List Nat) : chars (ss ++ ts) = chars ss ++ chars ts := by
  rw [chars, List.filter_append, List.map_append]
  rfl

theorem chars_cons (s : Nat) (ss : List Nat) : chars (s :: ss) = chars [s] ++ chars ss := by
  exact chars_append [s] ss

private theorem chars_of_ne {s : Nat} (some : s ≠ 0) : chars [s] = [Char.ofNat s] := by
  simp [chars, some]

private theorem char_ne_zero {n : Nat} (small : n < 128) :
    decide (Char.ofNat n ≠ Char.ofNat 0) = decide (n ≠ 0) := by
  revert n
  decide

private theorem filter_char {n : Nat} (small : n < 128) :
    [Char.ofNat n].filter (fun c => c ≠ Char.ofNat 0) = chars [n] := by
  rw [chars, List.filter_cons, List.filter_cons, char_ne_zero small]
  split <;> rfl

private theorem filter_chars {n : Nat} (small : n < 128) :
    (chars [n]).filter (fun c => c ≠ Char.ofNat 0) = chars [n] := by
  by_cases zero : n = 0
  · subst zero
    rfl
  · rw [chars_of_ne zero, filter_char small, chars_of_ne zero]

private theorem cut_octet {k o : Nat} (few : k < 7) (octet : o < 256) :
    cutTo ((k + 2 : Nat) - 1) (hextobin (digits 2 o)) = bits (k + 1) (o / 2 ^ (7 - k)) ∧
      cutFrom ((k + 2 : Nat) : Int) (hextobin (digits 2 o)) = bits (7 - k) o := by
  have parts : bits 8 o = bits (k + 1) (o / 2 ^ (7 - k)) ++ bits (7 - k) o := by
    rw [← bits_append]
    congr 1
    omega
  rw [hextobin, number_digits_of_lt octet, parts]
  constructor
  · apply cutTo_append
    rw [length_bits]
    omega
  · apply cutFrom_append
    rw [length_bits]
    omega

/-- With `k` bits left over a turn takes out the next septet; after the seventh octet it takes
out one more. -/
private theorem gsmdecodeTurn_octet {k o : Nat} (few : k < 7) (octet : o < 256) {rest : List Bool}
    (left : rest.length = k) :
    ∃ rest' : List Bool, rest'.length = k + 1 ∧ ofBits rest' = o / 2 ^ (7 - k) ∧
      gsmdecodeTurn (k + 2) rest (digits 2 o) =
        if k + 1 = 7 then
          (chars [o % 2 ^ (7 - k) * 2 ^ k + ofBits rest] ++ [Char.ofNat (ofBits rest')], 2, [])
        else (chars [o % 2 ^ (7 - k) * 2 ^ k + ofBits rest], k + 3, rest') := by
  obtain ⟨high, low⟩ := cut_octet few octet
  have septet : (bits (7 - k) o ++ rest).length = 7 := by
    rw [List.length_append, length_bits]
    omega
  have worth : ofBits (bits (7 - k) o ++ rest) = o % 2 ^ (7 - k) * 2 ^ k + ofBits rest := by
    rw [ofBits_append, ofBits_bits, left]
  have fill := ofBits_eq_zero (bits (7 - k) o ++ rest)
  rw [septet] at fill
  have out : (if bits (7 - k) o ++ rest = List.replicate 7 false then []
      else [Char.ofNat (ofBits (bits (7 - k) o ++ rest))]) =
      chars [ofBits (bits (7 - k) o ++ rest)] := by
    by_cases zero : ofBits (bits (7 - k) o ++ rest) = 0
    · rw [if_pos (fill.mp zero), zero]
      rfl
    · rw [if_neg (fun same => zero (fill.mpr same)), chars_of_ne zero]
  refine ⟨bits (k + 1) (o / 2 ^ (7 - k)), length_bits _ _, ?_, ?_⟩
  · rw [ofBits_bits]
    apply Nat.mod_eq_of_lt
    rw [Nat.div_lt_iff_lt_mul (Nat.two_pow_pos _), ← Nat.pow_add,
      show k + 1 + (7 - k) = 8 by omega]
    exact octet
  · unfold gsmdecodeTurn
    dsimp only
    rw [high, low, out, worth]
    by_cases last : k + 1 = 7
    · rw [if_pos last, if_pos (by omega)]
    · rw [if_neg last, if_neg (by omega)]

/-- What the loop prints of septets, the first of them with `k` bits left over: of zeros only
the one that an octet completes without a bit of its own, every eighth septet. -/
def emitted : Nat → List Nat → List Char
  | _, [] => []
  | k, s :: ss =>
      if k = 7 then Char.ofNat s :: emitted 0 ss else chars [s] ++ emitted (k + 1) ss

theorem gsmdecodeLoop_septets {octets : List Nat} (range : ∀ o ∈ octets, o < 256) {k : Nat}
    (few : k < 7) {rest : List Bool} (left : rest.length = k) :
    gsmdecodeLoop (k + 2) rest (octets.flatMap (digits 2)) =
      emitted k (groups ((k + 8 * octets.length) / 7) (ofBits rest + 2 ^ k * value octets)) := by
  induction octets generalizing k rest with
  | nil =>
    have none : (k + 8 * ([] : List Nat).length) / 7 = 0 := by
      rw [List.length_nil]
      omega
    rw [none]
    rfl
  | cons o octets ih =>
    obtain ⟨now, later⟩ := List.forall_mem_cons.mp range
    obtain ⟨rest', more, worth, turn⟩ := gsmdecodeTurn_octet few now left
    have pair : (o :: octets).flatMap (digits 2) =
        digit (o / 16 % 16) :: digit (o % 16) :: octets.flatMap (digits 2) := rfl
    have small : ofBits rest < 2 ^ k := left ▸ ofBits_lt rest
    rw [pair, gsmdecodeLoop, show [digit (o / 16 % 16), digit (o % 16)] = digits 2 o from rfl, turn,
      List.length_cons, value, groups_octet few o octets.length (value octets) small, emitted,
      if_neg (by omega : ¬k = 7)]
    by_cases last : k + 1 = 7
    · have full : ofBits rest' < 2 ^ 7 := by
        have bound := ofBits_lt rest'
        rwa [more, last] at bound
      have next := ih later (by decide : 0 < 7) (rfl : ([] : List Bool).length = 0)
      rw [show ofBits [] = 0 from rfl, Nat.pow_zero, Nat.one_mul, Nat.zero_add,
        Nat.zero_add (8 * octets.length), Nat.zero_add] at next
      rw [if_pos last, last, ← worth]
      dsimp only
      rw [groups_full _ _ full, emitted, if_pos rfl, next, List.append_assoc]
      rfl
    · rw [if_neg last, ← worth]
      dsimp only
      rw [ih later (by omega : k + 1 < 7) more]

private theorem filter_emitted {ss : List Nat} (range : ∀ s ∈ ss, s < 128) (k : Nat) :
    (emitted k ss).filter (fun c => c ≠ Char.ofNat 0) = chars ss := by
  induction ss generalizing k with
  | nil => rfl
  | cons s ss ih =>
    obtain ⟨now, later⟩ := List.forall_mem_cons.mp range
    rw [chars_cons, emitted]
    split
    · rw [← List.singleton_append, List.filter_append, filter_char now, ih later]
    · rw [List.filter_append, filter_chars now, ih later]

private theorem gsmdecode_octets {octets : List Nat} (range : ∀ o ∈ octets, o < 256) :
    gsmdecode (octets.flatMap (digits 2)) = emitted 0 (septets octets) ++ ['\n'] := by
  have loop := gsmdecodeLoop_septets range (by decide : 0 < 7) (rfl : ([] : List Bool).length = 0)
  rw [gsmdecode, loop, show ofBits [] = 0 from rfl, Nat.pow_zero, Nat.one_mul, Nat.zero_add,
    Nat.zero_add (value octets)]
  rfl

theorem substitute_gsmdecode {octets : List Nat} (range : ∀ o ∈ octets, o < 256) :
    substitute (gsmdecode (octets.flatMap (digits 2))) =
      (textOf octets).rdropWhile fun c => c = '\n' := by
  rw [substitute, gsmdecode_octets range, List.filter_append,
    filter_emitted (septets_lt octets)]
  simp [textOf]

private theorem emitted_append {ss : List Nat} (some : ∀ s ∈ ss, s ≠ 0) {k : Nat} (eight : k < 8)
    (more : List Nat) :
    emitted k (ss ++ more) = ss.map Char.ofNat ++ emitted ((k + ss.length) % 8) more := by
  induction ss generalizing k with
  | nil =>
    rw [List.length_nil, Nat.add_zero, Nat.mod_eq_of_lt eight]
    rfl
  | cons s ss ih =>
    obtain ⟨now, later⟩ := List.forall_mem_cons.mp some
    rw [List.cons_append, emitted, List.map_cons, List.cons_append, List.length_cons]
    split
    · rename_i last
      rw [ih later (by decide), show (k + (ss.length + 1)) % 8 = (0 + ss.length) % 8 by omega]
    · rw [ih later (by omega), chars_of_ne now, List.singleton_append,
        show (k + (ss.length + 1)) % 8 = (k + 1 + ss.length) % 8 by omega]

/-- `gsmdecode` gives packed septets back as characters, and ends the line, if and only if their
number leaves fewer than seven fill bits: seven zeros after the last septet are one more. -/
theorem gsmdecode_pack_iff {ss : List Nat} (range : ∀ s ∈ ss, 1 ≤ s ∧ s ≤ 127) :
    gsmdecode ((pack ss).flatMap (digits 2)) = ss.map Char.ofNat ++ ['\n'] ↔
      ss.length % 8 ≠ 7 := by
  have small : ∀ s ∈ ss, s < 128 := fun s member => Nat.lt_succ_of_le (range s member).2
  have some : ∀ s ∈ ss, s ≠ 0 := fun s member => Nat.ne_of_gt (range s member).1
  rw [gsmdecode_octets (pack_lt ss), septets_pack small, emitted_append some (by decide),
    Nat.zero_add]
  by_cases full : ss.length % 8 = 7
  · rw [if_pos full, full]
    simp [emitted]
  · rw [if_neg full]
    simp [emitted, full]

/-- Eight septets fill seven octets. -/
theorem gsmdecode_pack_eight :
    gsmdecode ((pack (List.replicate 8 65)).flatMap (digits 2)) =
        (List.replicate 8 65).map Char.ofNat ++ ['\n'] ↔
      (List.replicate 8 65).length % 8 ≠ 7 :=
  gsmdecode_pack_iff (by decide)

/-- Seven septets come back with a NUL after them. -/
theorem gsmdecode_pack_seven :
    gsmdecode ((pack (List.replicate 7 65)).flatMap (digits 2)) =
        List.replicate 7 'A' ++ [Char.ofNat 0, '\n'] ∧
      gsmdecode ((pack (List.replicate 7 65)).flatMap (digits 2)) ≠
        (List.replicate 7 65).map Char.ofNat ++ ['\n'] := by
  decide

end Decoding

end IecUtils.Sms.Shell
