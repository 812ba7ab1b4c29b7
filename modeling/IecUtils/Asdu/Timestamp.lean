/- Module: IecUtils/Asdu/Timestamp
   source: CP56Time2a and int2hex of scripts/asduconv, struct cp56time2a of ieclink/iec104_types.h
   digest: A time tag packed by floating point additions and read back as bit-fields. -/

import IecUtils.Asdu.Encoding

set_option autoImplicit false
set_option relaxedAutoImplicit false

namespace IecUtils.Asdu.Timestamp

open IecUtils.Foundation.Hex
open IecUtils.Foundation.Lines
open IecUtils.Foundation.Rounding
open IecUtils.Asdu.Encoding

section Layout

/-- `struct cp56time2a`, its reserved fields included. -/
structure Cp56time2a where
  msec : Nat
  min : Nat
  res1 : Nat
  iv : Nat
  hour : Nat
  res2 : Nat
  su : Nat
  mday : Nat
  wday : Nat
  month : Nat
  res3 : Nat
  year : Nat
  res4 : Nat
  deriving DecidableEq, Repr

/-- The bit-fields of seven octets, the least significant bits first. -/
def readCp56time2a (hex : List Char) : Cp56time2a :=
  let n := littleEndian hex
  { msec := n % 2 ^ 16
    min := n / 2 ^ 16 % 2 ^ 6
    res1 := n / 2 ^ 22 % 2
    iv := n / 2 ^ 23 % 2
    hour := n / 2 ^ 24 % 2 ^ 5
    res2 := n / 2 ^ 29 % 2 ^ 2
    su := n / 2 ^ 31 % 2
    mday := n / 2 ^ 32 % 2 ^ 5
    wday := n / 2 ^ 37 % 2 ^ 3
    month := n / 2 ^ 40 % 2 ^ 4
    res3 := n / 2 ^ 44 % 2 ^ 4
    year := n / 2 ^ 48 % 2 ^ 7
    res4 := n / 2 ^ 55 % 2 }

/-- The parts of a string `ms:min:hour:mday:wday:month:year`. -/
structure TimeText where
  msec : List Char
  min : List Char
  hour : List Char
  mday : List Char
  wday : List Char
  month : List Char
  year : List Char

def TimeText.text (t : TimeText) : List Char :=
  t.msec ++ ':' :: (t.min ++ ':' :: (t.hour ++ ':' :: (t.mday ++ ':' :: (t.wday ++ ':' ::
    (t.month ++ ':' :: t.year)))))

def TimeText.parts (t : TimeText) : List (List Char) :=
  [t.msec, t.min, t.hour, t.mday, t.wday, t.month, t.year]

/-- Decimal numerals with values a time tag can hold. -/
structure TimeText.InRange (t : TimeText) : Prop where
  numerals : ∀ part ∈ t.parts, ∀ c ∈ part, c.isDigit = true
  msec : decimal t.msec ≤ 59999
  min : decimal t.min ≤ 59
  hour : decimal t.hour ≤ 23
  mday : decimal t.mday ≤ 31
  wday : decimal t.wday ≤ 7
  month : decimal t.month ≤ 12
  year : decimal t.year ≤ 99

/-- The octets hold the same time, valid and not in summer time. -/
structure Survives (t : TimeText) (hex : List Char) : Prop where
  msec : (readCp56time2a hex).msec = decimal t.msec
  min : (readCp56time2a hex).min = decimal t.min
  hour : (readCp56time2a hex).hour = decimal t.hour
  mday : (readCp56time2a hex).mday = decimal t.mday
  wday : (readCp56time2a hex).wday = decimal t.wday
  month : (readCp56time2a hex).month = decimal t.month
  year : (readCp56time2a hex).year = decimal t.year
  iv : (readCp56time2a hex).iv = 0
  su : (readCp56time2a hex).su = 0

/-- The sum without rounding. -/
def packed (t : TimeText) : Nat :=
  decimal t.msec + (decimal t.min + 2 ^ 6) * 2 ^ 16 + decimal t.hour * 2 ^ 24 +
    (decimal t.mday + decimal t.wday * 2 ^ 5) * 2 ^ 32 + decimal t.month * 2 ^ 40 +
    decimal t.year * 2 ^ 48

end Layout

section Sum

variable {t : TimeText}

theorem split_text (range : t.InRange) : split ':' t.text = t.parts := by
  have free (part : List Char) (member : part ∈ t.parts) : ':' ∉ part := by
    intro colon
    exact absurd (range.numerals part member ':' colon) (by decide)
  have cuts : cut ':' t.text =
      ([t.msec, t.min, t.hour, t.mday, t.wday, t.month], t.year) := by
    unfold TimeText.text
    rw [cut_line _ _ (free _ (by simp [TimeText.parts])),
      cut_line _ _ (free _ (by simp [TimeText.parts])),
      cut_line _ _ (free _ (by simp [TimeText.parts])),
      cut_line _ _ (free _ (by simp [TimeText.parts])),
      cut_line _ _ (free _ (by simp [TimeText.parts])),
      cut_line _ _ (free _ (by simp [TimeText.parts])),
      cut_none (free _ (by simp [TimeText.parts]))]
  rw [split, cuts]
  rfl

theorem cp56Time2a_eq (range : t.InRange) : cp56Time2a t.text 1 0 = nearest 53 (packed t) := by
  have parts := split_text range
  obtain ⟨_, msec, min, hour, mday, wday, month, year⟩ := range
  have exact53 {n : Nat} (small : n < 2 ^ 53) : nearest 53 n = n := nearest_of_lt (by decide) small
  unfold cp56Time2a packed
  simp only [parts, TimeText.parts, List.getD_cons_zero, List.getD_cons_succ, Nat.reduceSub,
    Nat.one_mul, Nat.zero_mul, Nat.add_zero]
  rw [exact53 (n := decimal t.min + _) (by omega), exact53 (n := decimal t.msec + _) (by omega),
    exact53 (n := decimal t.hour) (by omega), exact53 (n := decimal t.msec + _ + _) (by omega),
    exact53 (n := decimal t.mday + _) (by omega),
    exact53 (n := decimal t.msec + _ + _ + _) (by omega),
    exact53 (n := decimal t.msec + _ + _ + _ + _) (by omega)]

theorem packed_bounds (range : t.InRange) :
    decimal t.year * 2 ^ 48 ≤ packed t ∧ packed t < (decimal t.year + 1) * 2 ^ 48 := by
  obtain ⟨_, msec, min, hour, mday, wday, month, year⟩ := range
  unfold packed
  omega

theorem packed_msec (range : t.InRange) : packed t % 2 ^ 16 = decimal t.msec := by
  have msec := range.msec
  unfold packed
  omega

theorem packed_spacing (range : t.InRange) (late : 32 ≤ decimal t.year) :
    spacing 53 (packed t) = if decimal t.year < 64 then 2 else 4 := by
  obtain ⟨low, high⟩ := packed_bounds range
  have year := range.year
  split
  · exact spacing_eq (e := 1) (by omega) (by omega) (by decide)
  · exact spacing_eq (e := 2) (by omega) (by omega) (by decide)

theorem cp56Time2a_exact_iff (range : t.InRange) :
    cp56Time2a t.text 1 0 = packed t ↔
      decimal t.year < 32 ∨ decimal t.year < 64 ∧ decimal t.msec % 2 = 0 ∨
        decimal t.msec % 4 = 0 := by
  obtain ⟨low, high⟩ := packed_bounds range
  have msec := packed_msec range
  rw [cp56Time2a_eq range]
  by_cases early : decimal t.year < 32
  · have exact53 := nearest_of_lt (p := 53) (n := packed t) (by decide) (by omega)
    simp [exact53, early]
  · rw [nearest_eq_self_iff, packed_spacing range (by omega)]
    split <;> omega

end Sum

section Reading

variable {t : TimeText}

theorem survives_iff_exact (range : t.InRange) :
    Survives t (int2hex (cp56Time2a t.text 1 0) 7) ↔ cp56Time2a t.text 1 0 = packed t := by
  obtain ⟨low, high⟩ := packed_bounds range
  have year := range.year
  have msec := packed_msec range
  have near := nearest_near 53 (packed t)
  have close : packed t < cp56Time2a t.text 1 0 + 4 ∧ cp56Time2a t.text 1 0 < packed t + 4 := by
    rw [cp56Time2a_eq range]
    by_cases early : decimal t.year < 32
    · rw [nearest_of_lt (by decide) (by omega)]
      omega
    · rw [packed_spacing range (by omega)] at near
      split at near <;> omega
  have read : littleEndian (int2hex (cp56Time2a t.text 1 0) 7) = cp56Time2a t.text 1 0 :=
    littleEndian_int2hex (by decide) (by omega)
  constructor
  · intro survives
    have same := survives.msec
    simp only [readCp56time2a, read] at same
    omega
  · intro kept
    rw [kept] at read ⊢
    have parts : packed t = decimal t.msec + (decimal t.min + 2 ^ 6) * 2 ^ 16 +
      decimal t.hour * 2 ^ 24 + (decimal t.mday + decimal t.wday * 2 ^ 5) * 2 ^ 32 +
      decimal t.month * 2 ^ 40 + decimal t.year * 2 ^ 48 := rfl
    obtain ⟨_, msec, min, hour, mday, wday, month, year⟩ := range
    constructor <;> simp only [readCp56time2a, read] <;> omega

/-- The sum stays below `2 ^ 53` and the octets hold the time, if and only if the year is at
most 31. -/
theorem timestamp_survives_iff (range : t.InRange) :
    cp56Time2a t.text 1 0 < 2 ^ 53 ∧ Survives t (int2hex (cp56Time2a t.text 1 0) 7) ↔
      decimal t.year ≤ 31 := by
  obtain ⟨low, high⟩ := packed_bounds range
  rw [survives_iff_exact range, cp56Time2a_exact_iff range]
  constructor
  · rintro ⟨small, _⟩
    by_contra late
    have large : 2 ^ 53 ≤ packed t := by omega
    have bits : 53 ≤ (packed t).log2 := (Nat.le_log2 (by omega)).mpr large
    have stays := two_pow_log2_le_nearest (by decide) large
    have floor : 2 ^ 53 ≤ 2 ^ (packed t).log2 := Nat.pow_le_pow_right (by decide) bits
    rw [cp56Time2a_eq range] at small
    omega
  · intro early
    refine ⟨?_, .inl (by omega)⟩
    rw [cp56Time2a_eq range, nearest_of_lt (by decide) (by omega)]
    omega

def newYearsEve (year : List Char) : TimeText :=
  ⟨['1'], ['0'], ['1', '2'], ['3', '1'], ['3'], ['1', '2'], year⟩

theorem newYearsEve_range {year : List Char} (numeral : year.all Char.isDigit = true)
    (small : decimal year ≤ 99) : (newYearsEve year).InRange := by
  refine ⟨?_, (by decide : decimal ['1'] ≤ 59999), (by decide : decimal ['0'] ≤ 59),
    (by decide : decimal ['1', '2'] ≤ 23), (by decide : decimal ['3', '1'] ≤ 31),
    (by decide : decimal ['3'] ≤ 7), (by decide : decimal ['1', '2'] ≤ 12), small⟩
  have all : (newYearsEve year).parts.all (fun part => part.all Char.isDigit) = true := by
    simp [newYearsEve, TimeText.parts, numeral]
  intro part member
  exact List.all_eq_true.mp (List.all_eq_true.mp all part member)

theorem timestamp_survives_2031 :
    Survives (newYearsEve ['3', '1'])
      (int2hex (cp56Time2a (newYearsEve ['3', '1']).text 1 0) 7) :=
  ((timestamp_survives_iff (newYearsEve_range rfl (by decide))).mpr (by decide)).2

/-- A year later the millisecond is lost. -/
theorem timestamp_lost_2032 :
    (newYearsEve ['3', '2']).InRange ∧
      ¬ (cp56Time2a (newYearsEve ['3', '2']).text 1 0 < 2 ^ 53 ∧
        Survives (newYearsEve ['3', '2'])
          (int2hex (cp56Time2a (newYearsEve ['3', '2']).text 1 0) 7)) ∧
      (readCp56time2a (int2hex (cp56Time2a (newYearsEve ['3', '2']).text 1 0) 7)).msec = 0 := by
  have lost : (readCp56time2a
      (int2hex (cp56Time2a (newYearsEve ['3', '2']).text 1 0) 7)).msec = 0 := by decide
  refine ⟨newYearsEve_range rfl (by decide), ?_, lost⟩
  rintro ⟨_, survives⟩
  have kept := survives.msec
  rw [lost] at kept
  exact absurd kept (by decide)

end Reading

end IecUtils.Asdu.Timestamp
