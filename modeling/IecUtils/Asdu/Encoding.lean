/- Module: IecUtils/Asdu/Encoding
   source: iehex, int2hex, indexchr, float2hex, CP56Time2a and qds of scripts/asduconv
   digest: The functions of the awk program that turn the fields of a record into hex digits. -/

import IecUtils.Foundation.Hex
import IecUtils.Foundation.Lines
import IecUtils.Foundation.Rounding

set_option autoImplicit false
set_option relaxedAutoImplicit false

namespace IecUtils.Asdu.Encoding

open IecUtils.Foundation.Hex
open IecUtils.Foundation.Lines (cut)
open IecUtils.Foundation.Rounding

section Awk

def decimal (text : List Char) : Nat := Nat.ofDigitChars 10 (text.takeWhile Char.isDigit) 0

def signed : List Char → Int
  | '-' :: text => -decimal text
  | '+' :: text => decimal text
  | text => decimal text

/-- `substr(text, m, n)`. -/
def substr (text : List Char) (m n : Nat) : List Char := (text.drop (m - 1)).take n

/-- `substr(text, index(text, c) + 1)`: what stands behind the first `c`, or all of it. -/
def behind (c : Char) (text : List Char) : List Char :=
  if c ∈ text then (text.dropWhile (· ≠ c)).drop 1 else text

/-- The elements `split` makes. -/
def split (sep : Char) (text : List Char) : List (List Char) :=
  (cut sep text).1 ++ [(cut sep text).2]

/-- `sprintf("%0*X", w, val)`: a negative value is printed as 64 bits. -/
def formatX (w : Nat) (val : Int) : List Char :=
  padded w (if val < 0 then (val % 2 ^ 64).toNat else val.toNat)

end Awk

section Source

/-- The loop of `int2hex`, on what `sprintf` printed. -/
def strhex (valhex : List Char) (nbyte : Nat) : List Char :=
  (List.range nbyte).foldl (fun strhex i => substr valhex (2 * i + 1) 2 ++ strhex) []

def int2hex (val : Int) (nbyte : Nat) : List Char := strhex (formatX (2 * nbyte) val) nbyte

def qds (strbits : List Char) : Nat :=
  (split ',' strbits).foldl (fun sum flag =>
    if flag = ['I', 'V'] then sum + 128
    else if flag = ['N', 'T'] then sum + 64
    else if flag = ['S', 'B'] then sum + 32
    else if flag = ['B', 'L'] then sum + 16
    else if flag = ['O', 'V'] then sum + 1
    else sum) 0

/-- The sum is one of doubles. Up to the last addition it is less than `2 ^ 53` and a product
with a power of two is exact. -/
def cp56Time2a (timestr : List Char) (sparebit subit : Nat) : Nat :=
  let elem (i : Nat) : Nat := decimal ((split ':' timestr).getD (i - 1) [])
  let plus (a b : Nat) : Nat := nearest 53 (a + b)
  plus (plus (plus (plus (plus (elem 1)
    ((plus (elem 2) (sparebit * 2 ^ 6)) * 2 ^ 16))
    ((plus (elem 3) (subit * 2 ^ 7)) * 2 ^ 24))
    ((plus (elem 4) (elem 5 * 2 ^ 5)) * 2 ^ 32))
    (elem 6 * 2 ^ 40))
    (elem 7 * 2 ^ 48)

/-- `index(convert, chr) - 1`. -/
def indexchr (chr : Char) : Int :=
  let convert := ['0', '1', '2', '3', '4', '5', '6', '7', '8', '9', 'a', 'b', 'c', 'd', 'e', 'f']
  if chr ∈ convert then (convert.idxOf chr : Int) else -1

/-- Which of the two ways `/usr/bin/printf` renders floating point numbers; unset is a third. -/
inductive FloatFunc where
  | one
  | two
  | unset
  deriving DecidableEq, Repr

/-- The loop over the digits: `j` is the exponent of the next place plus one. -/
def significandLoop : List Char → Nat → Int → Int
  | [], _, sum => sum
  | _ :: _, 0, sum => sum
  | c :: signstr, j + 1, sum =>
      if c = ',' then significandLoop signstr (j + 1) sum
      else if c = 'p' then sum
      else significandLoop signstr j (sum + indexchr c * 16 ^ j)

/-- The arithmetic of `float2hex` on a rendering of a number other than zero. -/
def floatBits (tempstr : List Char) : Int :=
  let signbit : Int := if tempstr.head? = some '-' then 2 ^ 31 else 0
  let exponent := (signed (behind 'p' tempstr) + 3 + 127) * 2 ^ 23
  let signstr := behind 'x' tempstr
  let significand := significandLoop signstr 6 0 - 2 ^ 23
  signbit + exponent + significand

/-- `float2hex` on what the command printed; the body of the second mode is commented out. -/
def float2hex (mode : FloatFunc) (tempstr : List Char) : List Char :=
  match mode with
  | .one =>
      if tempstr = ['0', 'x', '0', 'p', '+', '0'] then int2hex 0 4
      else int2hex (floatBits tempstr) 4
  | _ => []

/-- The keys of the array `ASDU`: single points and short floating point numbers, without and
with a time tag. -/
inductive AsduType where
  | spNa
  | meNc
  | spTb
  | meTf
  deriving DecidableEq, Repr

def AsduType.code : AsduType → Nat
  | .spNa => 1
  | .meNc => 13
  | .spTb => 30
  | .meTf => 36

/-- The fields `$4`, `$5` and `$6`, with the rendering of `$4` by `/usr/bin/printf %a`. -/
structure Body where
  value : List Char
  rendering : List Char
  quality : List Char
  time : List Char
  deriving DecidableEq, Repr

def iehex (mode : FloatFunc) (type : AsduType) (b : Body) : List Char :=
  match type with
  | .spNa => int2hex (decimal b.value + qds b.quality) 1
  | .meNc => float2hex mode b.rendering ++ int2hex (qds b.quality) 1
  | .spTb => int2hex (decimal b.value + qds b.quality) 1 ++ int2hex (cp56Time2a b.time 1 0) 7
  | .meTf =>
      float2hex mode b.rendering ++ int2hex (qds b.quality) 1 ++ int2hex (cp56Time2a b.time 1 0) 7

end Source

section Lengths

private theorem foldl_substr (cs acc : List Char) (k : Nat) :
    (List.range k).foldl (fun strhex i => substr cs (2 * i + 1) 2 ++ strhex) acc =
      reversePairs k cs ++ acc := by
  induction k generalizing cs acc with
  | zero => rfl
  | succ k ih =>
    have later (i : Nat) : substr cs (2 * (i + 1) + 1) 2 = substr (cs.drop 2) (2 * i + 1) 2 := by
      rw [substr, substr, List.drop_drop]
      congr 2
      omega
    rw [List.range_succ_eq_map, List.foldl_cons, List.foldl_map]
    simp only [Nat.succ_eq_add_one, later]
    rw [ih, reversePairs, List.append_assoc]
    rfl

theorem strhex_eq (valhex : List Char) (nbyte : Nat) :
    strhex valhex nbyte = reversePairs nbyte valhex := by
  rw [strhex, foldl_substr, List.append_nil]

theorem int2hex_eq (val : Int) (nbyte : Nat) :
    int2hex val nbyte = reversePairs nbyte (formatX (2 * nbyte) val) := strhex_eq _ _

theorem le_length_formatX (w : Nat) (val : Int) : w ≤ (formatX w val).length := by
  rw [formatX, length_padded]
  exact Nat.le_max_left _ _

/-- Whatever the value, `int2hex` gives two digits for each byte. -/
@[simp] theorem length_int2hex (val : Int) (nbyte : Nat) :
    (int2hex val nbyte).length = 2 * nbyte := by
  rw [int2hex_eq, length_reversePairs (le_length_formatX _ _)]

/-- A value that fits is written out in full, the least significant byte first. -/
theorem int2hex_of_lt {n nbyte : Nat} (some : 0 < nbyte) (fits : n < 256 ^ nbyte) :
    int2hex n nbyte = reversePairs nbyte (digits (2 * nbyte) n) := by
  have natural : ¬ (n : Int) < 0 := by omega
  have small : n < 16 ^ (2 * nbyte) := by
    rw [Nat.pow_mul]
    exact fits
  rw [int2hex_eq, formatX, if_neg natural, Int.toNat_natCast, padded_of_lt (by omega) small]

theorem littleEndian_int2hex {n nbyte : Nat} (some : 0 < nbyte) (fits : n < 256 ^ nbyte) :
    littleEndian (int2hex n nbyte) = n := by
  have small : n < 16 ^ (2 * nbyte) := by
    rw [Nat.pow_mul]
    exact fits
  rw [int2hex_of_lt some fits, littleEndian_reversePairs (length_digits _ _),
    number_digits_of_lt small]

def width (mode : FloatFunc) : AsduType → Nat
  | .spNa => 2
  | .meNc => if mode = .one then 10 else 2
  | .spTb => 16
  | .meTf => if mode = .one then 24 else 16

theorem length_float2hex (mode : FloatFunc) (tempstr : List Char) :
    (float2hex mode tempstr).length = if mode = .one then 8 else 0 := by
  cases mode with
  | one =>
    unfold float2hex
    dsimp only
    split <;> simp
  | two => rfl
  | unset => rfl

@[simp] theorem length_iehex (mode : FloatFunc) (type : AsduType) (b : Body) :
    (iehex mode type b).length = width mode type := by
  cases type <;> cases mode <;> simp [iehex, width, length_float2hex]

end Lengths

end IecUtils.Asdu.Encoding
