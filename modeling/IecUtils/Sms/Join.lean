/- Module: IecUtils/Sms/Join
   source: smsjoin of scripts/utils/sms_utils, and the sort in front of it in scripts/smsget
   digest: Lines are sorted by part, count and reference number, and gathered by reference number. -/

import IecUtils.Foundation.Tally
import IecUtils.Sms.Parse

set_option autoImplicit false
set_option relaxedAutoImplicit false

namespace IecUtils.Sms.Join

open IecUtils.Foundation.Tally
open IecUtils.Foundation.Words
open IecUtils.Sms.Parse (Final)

section Source

/-- `$n` of `awk -F:`, and what a key of `sort -t:` begins with. -/
def field (n : Nat) (line : List Char) : List Char := (line.splitOn ':').getD (n - 1) []

/-- What `-n` compares: the number in front. Keys have no sign and no point there. -/
def numeric (cs : List Char) : Nat := Nat.ofDigitChars 10 (cs.takeWhile Char.isDigit) 0

/-- The order of texts in the locale. -/
structure Collation where
  le : List Char → List Char → Bool
  trans : ∀ a b c, le a b = true → le b c = true → le a c = true
  total : ∀ a b, (le a b || le b a) = true

/-- The order of `sort -n -t: -k 7 -k 6 -k 5,5`, which compares whole lines in the end. -/
def before (c : Collation) : List Char → List Char → Bool :=
  byKey (fun line => numeric (field 7 line)) <|
    byKey (fun line => numeric (field 6 line)) <|
      byKey (fun line => numeric (field 5 line)) c.le

def sortLines (c : Collation) (lines : List (List Char)) : List (List Char) :=
  lines.mergeSort (before c)

/-- The elements of the arrays under one index; those that are not set are empty, and 0. -/
structure Row where
  index : List Char
  num : List Char
  dcs : List Char
  scts : List Char
  totalPart : List Char
  curPart : Nat
  data : List Char

def Row.unset : Row := ⟨[], [], [], [], [], 0, []⟩

def Row.assign (r : Row) (line : List Char) : Row where
  index := if r.index = [] then field 1 line else r.index ++ ' ' :: field 1 line
  num := field 2 line
  dcs := field 3 line
  scts := field 4 line
  totalPart := field 6 line
  curPart := r.curPart + 1
  data := r.data ++ field 8 line

/-- The arrays, and the lines that were printed. -/
structure Awk where
  arrays : List (List Char × Row)
  out : List (List Char)

def mainRule (s : Awk) (line : List Char) : Awk :=
  if Final line then { s with out := s.out ++ [line] }
  else if field 8 line = [] then s
  else if field 5 line = [] then
    { s with out := s.out ++ [[':'].intercalate
      [field 1 line, field 2 line, field 3 line, field 4 line, field 8 line]] }
  else { s with arrays := enter Row.assign .unset (field 5 line) line s.arrays }

/-- `TOTALPART[var] == CURPART[var]`: numbers are compared if the field is a numeral. -/
def Row.Complete (r : Row) : Prop :=
  if r.totalPart ≠ [] ∧ r.totalPart.all Char.isDigit = true then
    Nat.ofDigitChars 10 r.totalPart 0 = r.curPart
  else r.totalPart = Nat.toDigits 10 r.curPart

instance (r : Row) : Decidable r.Complete := by
  unfold Row.Complete
  infer_instance

def Row.line (r : Row) : List Char := [':'].intercalate [r.index, r.num, r.dcs, r.scts, r.data]

/-- The rule END; in which order it takes the indices of an array is not specified. -/
def endRule (s : Awk) : List (List Char) :=
  (s.arrays.filter fun entry => entry.2.Complete).map fun entry => entry.2.line

def smsjoin (lines : List (List Char)) : List (List Char) :=
  let s := lines.foldl mainRule ⟨[], []⟩
  s.out ++ endRule s

end Source

section Arrays

def key (line : List Char) : Option (List Char) :=
  if Final line ∨ field 8 line = [] ∨ field 5 line = [] then none else some (field 5 line)

theorem arrays_eq (lines : List (List Char)) (s : Awk) :
    (lines.foldl mainRule s).arrays = lines.foldl (gather key Row.assign .unset) s.arrays := by
  induction lines generalizing s with
  | nil => rfl
  | cons line lines ih =>
    rw [List.foldl_cons, ih, List.foldl_cons]
    congr 1
    unfold mainRule gather key
    by_cases final : Final line
    · simp [final]
    · by_cases data : field 8 line = []
      · simp [final, data]
      · by_cases ref : field 5 line = []
        · simp [final, data, ref]
        · simp [final, data, ref]

theorem mem_endRule (lines : List (List Char)) (text : List Char) :
    text ∈ endRule (lines.foldl mainRule ⟨[], []⟩) ↔
      ∃ ref, under key ref lines ≠ [] ∧
        ((under key ref lines).foldl Row.assign .unset).Complete ∧
          text = ((under key ref lines).foldl Row.assign .unset).line := by
  have holds : Holds key Row.assign .unset lines (lines.foldl mainRule ⟨[], []⟩).arrays := by
    rw [arrays_eq]
    exact holds_foldl lines
  unfold endRule
  rw [List.mem_map]
  constructor
  · rintro ⟨⟨ref, row⟩, member, rfl⟩
    obtain ⟨inside, complete⟩ := List.mem_filter.mp member
    obtain ⟨some, rfl⟩ := (holds.mem_iff ref row).mp inside
    exact ⟨ref, some, by simpa using complete, rfl⟩
  · rintro ⟨ref, some, complete, rfl⟩
    refine ⟨(ref, _), List.mem_filter.mpr ⟨(holds.mem_iff ref _).mpr ⟨some, rfl⟩, ?_⟩, rfl⟩
    simpa using complete

end Arrays

end IecUtils.Sms.Join
