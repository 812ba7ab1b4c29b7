/- Module: IecUtils/Foundation/Scan
   source: none (formatted input over a source that does not block)
   digest: Characters are taken from a buffer that is refilled until a read finds nothing; printed numbers are read back. -/

import Mathlib.Data.List.TakeWhile
import Mathlib.Data.List.TakeDrop

set_option autoImplicit false
set_option relaxedAutoImplicit false

namespace IecUtils.Foundation.Scan

/-- An input stream: what was read and not consumed, and what the coming reads find. A read
may find nothing; after the last one nothing is found any more. -/
structure Stream where
  buffer : List Char
  reads : List (List Char)
  deriving DecidableEq

/-- Consume characters with a property. If nothing is left in the buffer afterwards, a read
has found nothing. -/
def takeSpan (p : Char → Bool) (buffer : List Char) : List (List Char) → List Char × Stream
  | [] => (buffer.takeWhile p, ⟨buffer.dropWhile p, []⟩)
  | r :: rest =>
      if buffer.dropWhile p ≠ [] then (buffer.takeWhile p, ⟨buffer.dropWhile p, r :: rest⟩)
      else if r = [] then (buffer, ⟨[], rest⟩)
      else (buffer ++ (takeSpan p r rest).1, (takeSpan p r rest).2)

def isSpace (c : Char) : Bool := c = ' ' || (9 ≤ c.toNat && c.toNat ≤ 13)

def skipSpace (s : Stream) : Stream := (takeSpan isSpace s.buffer s.reads).2

inductive Failure where
  | input
  | matching
  deriving DecidableEq

/-- The sign in front of a number: whether it is a minus, and what follows. -/
def takeSign (s : Stream) : Bool × Stream :=
  match s.buffer with
  | '-' :: rest => (true, ⟨rest, s.reads⟩)
  | '+' :: rest => (false, ⟨rest, s.reads⟩)
  | _ => (false, s)

def scanInt (s : Stream) : Except Failure Int × Stream :=
  let s := skipSpace s
  if s.buffer = [] then (.error .input, s)
  else
    let (negative, s) := takeSign s
    let (digits, s) := takeSpan Char.isDigit s.buffer s.reads
    if digits = [] then (.error .matching, s)
    else
      let n := Nat.ofDigitChars 10 digits 0
      (.ok (if negative then -n else n), s)

/-- Read a run of characters of a set, which must not be empty. -/
def scanSet (p : Char → Bool) (s : Stream) : Except Failure (List Char) × Stream :=
  let (chars, s) := takeSpan p s.buffer s.reads
  if chars ≠ [] then (.ok chars, s)
  else if s.buffer = [] then (.error .input, s)
  else (.error .matching, s)

def decimal (v : Int) : List Char :=
  if v < 0 then '-' :: Nat.toDigits 10 v.natAbs else Nat.toDigits 10 v.natAbs

section Spans

variable {p : Char → Bool} {buffer rest : List Char} {c : Char}

theorem takeSpan_stop (all : ∀ x ∈ buffer, p x = true) (stop : p c = false)
    (reads : List (List Char)) :
    takeSpan p (buffer ++ c :: rest) reads = (buffer, ⟨c :: rest, reads⟩) := by
  have taken : (buffer ++ c :: rest).takeWhile p = buffer := by
    rw [List.takeWhile_append_of_pos all, List.takeWhile_cons_of_neg (by simp [stop]),
      List.append_nil]
  have left : (buffer ++ c :: rest).dropWhile p = c :: rest := by
    rw [List.dropWhile_append_of_pos all, List.dropWhile_cons_of_neg (by simp [stop])]
  cases reads with
  | nil => rw [takeSpan, taken, left]
  | cons r reads => rw [takeSpan, taken, left, if_pos (List.cons_ne_nil _ _)]

theorem takeSpan_refill (all : ∀ x ∈ buffer, p x = true) {r : List Char} (found : r ≠ [])
    (reads : List (List Char)) :
    takeSpan p buffer (r :: reads) =
      (buffer ++ (takeSpan p r reads).1, (takeSpan p r reads).2) := by
  have none : buffer.dropWhile p = [] := List.dropWhile_eq_nil_iff.mpr all
  rw [takeSpan, none, if_neg (by simp), if_neg found]

theorem takeSpan_dry (all : ∀ x ∈ buffer, p x = true) {reads : List (List Char)}
    (nothing : reads.head?.getD [] = []) :
    takeSpan p buffer reads = (buffer, ⟨[], reads.tail⟩) := by
  have none : buffer.dropWhile p = [] := List.dropWhile_eq_nil_iff.mpr all
  cases reads with
  | nil => rw [takeSpan, none, List.takeWhile_eq_self_iff.mpr all]; rfl
  | cons r reads =>
    have empty : r = [] := nothing
    rw [takeSpan, none, if_neg (by simp), if_pos empty]
    rfl

theorem skipSpace_one {space : Char} (blank : isSpace space = true) (visible : isSpace c = false)
    (reads : List (List Char)) : skipSpace ⟨space :: c :: rest, reads⟩ = ⟨c :: rest, reads⟩ := by
  have all : ∀ x ∈ [space], isSpace x = true := by
    intro x member
    rw [List.mem_singleton.mp member]
    exact blank
  exact congrArg Prod.snd (takeSpan_stop all visible reads)

end Spans

section Numbers

theorem digit_range {c : Char} (digit : c.isDigit = true) : 48 ≤ c.toNat ∧ c.toNat ≤ 57 := by
  simp only [Char.isDigit, Bool.and_eq_true, decide_eq_true_eq, ge_iff_le,
    UInt32.le_iff_toNat_le] at digit
  exact digit

theorem isSpace_of_isDigit {c : Char} (digit : c.isDigit = true) : isSpace c = false := by
  obtain ⟨low, high⟩ := digit_range digit
  have apart : c ≠ ' ' := by
    rintro rfl
    exact absurd low (by decide)
  have beyond : ¬ c.toNat ≤ 13 := by omega
  simp [isSpace, apart, beyond]

theorem takeSign_digit {c : Char} {cs : List Char} (digit : c.isDigit = true)
    (reads : List (List Char)) :
    takeSign ⟨c :: cs, reads⟩ = (false, ⟨c :: cs, reads⟩) := by
  obtain ⟨low, high⟩ := digit_range digit
  unfold takeSign
  split
  · rename_i minus
    obtain ⟨rfl, _⟩ := List.cons.inj minus
    exact absurd low (by decide)
  · rename_i plus
    obtain ⟨rfl, _⟩ := List.cons.inj plus
    exact absurd low (by decide)
  · rfl

theorem toDigits_isDigit (n : Nat) : ∀ c ∈ Nat.toDigits 10 n, c.isDigit = true :=
  fun _ member => Nat.isDigit_of_mem_toDigits (by decide) (by decide) member

theorem notMem_toDigits {c : Char} (other : c.isDigit = false) (n : Nat) :
    c ∉ Nat.toDigits 10 n := by
  intro member
  rw [toDigits_isDigit n c member] at other
  cases other

theorem decimal_head (v : Int) : ∃ c cs, decimal v = c :: cs ∧ isSpace c = false := by
  unfold decimal
  split
  · exact ⟨'-', _, rfl, by decide⟩
  · cases digits : Nat.toDigits 10 v.natAbs with
    | nil => exact absurd digits Nat.toDigits_ne_nil
    | cons c cs =>
      refine ⟨c, cs, rfl, isSpace_of_isDigit (toDigits_isDigit v.natAbs c ?_)⟩
      rw [digits]
      exact List.mem_cons_self

theorem scanInt_decimal {s : Stream} {v : Int} {c : Char} {rest : List Char}
    {reads : List (List Char)}
    (skipped : skipSpace s = ⟨decimal v ++ c :: rest, reads⟩) (stop : c.isDigit = false) :
    scanInt s = (.ok v, ⟨c :: rest, reads⟩) := by
  have taken : takeSpan Char.isDigit (Nat.toDigits 10 v.natAbs ++ c :: rest) reads =
      (Nat.toDigits 10 v.natAbs, ⟨c :: rest, reads⟩) :=
    takeSpan_stop (toDigits_isDigit v.natAbs) stop reads
  have value : Nat.ofDigitChars 10 (Nat.toDigits 10 v.natAbs) 0 = v.natAbs :=
    Nat.ofDigitChars_toDigits (by decide) (by decide)
  have signed : takeSign ⟨decimal v ++ c :: rest, reads⟩ =
      (decide (v < 0), ⟨Nat.toDigits 10 v.natAbs ++ c :: rest, reads⟩) := by
    unfold decimal
    split
    · rename_i negative
      rw [decide_eq_true negative]
      rfl
    · rename_i positive
      rw [decide_eq_false positive]
      cases digits : Nat.toDigits 10 v.natAbs with
      | nil => exact absurd digits Nat.toDigits_ne_nil
      | cons d ds =>
        refine takeSign_digit (toDigits_isDigit v.natAbs d ?_) reads
        rw [digits]
        exact List.mem_cons_self
  have some : decimal v ++ c :: rest ≠ [] := by simp
  unfold scanInt
  rw [skipped]
  simp only [if_neg some, signed, taken, if_neg Nat.toDigits_ne_nil, value, decide_eq_true_eq]
  congr 2
  split <;> omega

end Numbers

end IecUtils.Foundation.Scan
