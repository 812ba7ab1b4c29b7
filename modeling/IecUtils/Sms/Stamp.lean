/- Module: IecUtils/Sms/Stamp
   source: get_smststamp of scripts/utils/sms_utils, CP56Time2a of scripts/asduconv, struct cp56time2a of ieclink/iec104_types.h
   digest: The time stamp of a message comes through the text of smsdrop and the octets of asduconv. -/

import IecUtils.Asdu.Timestamp
import IecUtils.Foundation.Scan
import IecUtils.Sms.Record

set_option autoImplicit false
set_option relaxedAutoImplicit false

namespace IecUtils.Sms.Stamp

open IecUtils.Foundation.Builtins
open IecUtils.Foundation.Hex
open IecUtils.Foundation.Words
open IecUtils.Foundation.Scan (toDigits_isDigit)
open IecUtils.Sms.Shell
open IecUtils.Sms.Pdu
open IecUtils.Sms.Split (Plain plain_hex)
open IecUtils.Sms.Record (alphanum_other blank_alphanum)
open IecUtils.Asdu.Encoding (decimal int2hex cp56Time2a littleEndian_int2hex)
open IecUtils.Asdu.Timestamp

section Source

/-- `d1`, `d2` and what is left of `scts`, which has no patterns. -/
def semiOctets (scts : List Char) : List Char × List Char × List Char :=
  let line := substitute (echo (words isBlank scts))
  (cutRange 1 1 line, cutRange 2 2 line, cutFrom 3 line)

/-- `[ "$d2" -eq 0 ] && d2=""`, for one character. -/
def noZero (d2 : List Char) : List Char := if d2 = ['0'] then [] else d2

/-- `$((text*1000))` is an error without a decimal numeral. -/
def thousandfold (text : List Char) : Option (List Char) :=
  if text ≠ [] ∧ text.all Char.isDigit = true then some (Nat.toDigits 10 (decimal text * 1000))
  else none

/-- `date` is `date -d $year-$month-$day_m +%u`. -/
def getSmststamp (date : List Char → List Char → List Char → List Char) (scts : List Char) :
    Option (List Char) :=
  let (d1, d2, scts) := semiOctets scts
  let year := d2 ++ d1
  let (d1, d2, scts) := semiOctets scts
  let month := noZero d2 ++ d1
  let (d1, d2, scts) := semiOctets scts
  let dayM := noZero d2 ++ d1
  let (d1, d2, scts) := semiOctets scts
  let hour := noZero d2 ++ d1
  let (d1, d2, scts) := semiOctets scts
  let min := noZero d2 ++ d1
  let (d1, d2, _) := semiOctets scts
  (thousandfold (noZero d2 ++ d1)).map fun nanosec =>
    [':'].intercalate [nanosec, min, hour, dayM, date year month dayM, month, year]

end Source

section Purpose

/-- A time of the service centre, to the second; the zone is not used. -/
structure Scts where
  year : Nat
  month : Nat
  day : Nat
  hour : Nat
  minute : Nat
  second : Nat
  zone : Octet
  year_le : year ≤ 99
  month_range : 1 ≤ month ∧ month ≤ 12
  day_range : 1 ≤ day ∧ day ≤ 31
  hour_le : hour ≤ 23
  minute_le : minute ≤ 59
  second_le : second ≤ 59

def semi (n : Nat) : Octet := octet (n % 10 * 16 + n / 10)

def Scts.octets (s : Scts) : List Octet :=
  [semi s.year, semi s.month, semi s.day, semi s.hour, semi s.minute, semi s.second, s.zone]

/-- The same time as an information element holds it, with the bit that `CP56Time2a` sets. -/
def Scts.time (s : Scts) (weekday : Nat) : Cp56time2a where
  msec := 1000 * s.second
  min := s.minute
  res1 := 1
  iv := 0
  hour := s.hour
  res2 := 0
  su := 0
  mday := s.day
  wday := weekday
  month := s.month
  res3 := 0
  year := s.year
  res4 := 0

/-- What `get_smststamp` makes of the digits, with and without a zero in front. -/
def two (n : Nat) : List Char := [digit (n / 10), digit (n % 10)]

def short (n : Nat) : List Char := noZero [digit (n / 10)] ++ [digit (n % 10)]

def Scts.timeText (s : Scts) (weekday : List Char) : TimeText where
  msec := Nat.toDigits 10 (1000 * s.second)
  min := short s.minute
  hour := short s.hour
  mday := short s.day
  wday := weekday
  month := short s.month
  year := two s.year

end Purpose

section Text

variable {n : Nat}

private theorem digit_facts : ∀ n < 10, (digit n).isDigit = true := by decide

theorem decimal_two : ∀ n < 100, decimal (two n) = n := by decide +kernel

theorem decimal_short : ∀ n < 100, decimal (short n) = n := by decide +kernel

theorem digits_two (small : n < 100) : ∀ c ∈ two n, c.isDigit = true := by
  intro c member
  simp only [two, List.mem_cons, List.not_mem_nil, or_false] at member
  rcases member with rfl | rfl
  · exact digit_facts _ (by omega)
  · exact digit_facts _ (by omega)

theorem digits_short (small : n < 100) : ∀ c ∈ short n, c.isDigit = true := by
  intro c member
  refine digits_two small c ?_
  unfold short noZero at member
  split at member
  · exact List.mem_cons_of_mem _ member
  · exact member

theorem hex_semi (small : n < 100) : hex [semi n] = [digit (n % 10), digit (n / 10)] := by
  have value : (semi n).val = n % 10 * 16 + n / 10 := by
    change (n % 10 * 16 + n / 10) % 256 = _
    omega
  have units : (n % 10 * 16 + n / 10) / 16 = n % 10 := by omega
  have tens : (n % 10 * 16 + n / 10) % 16 = n / 10 := by omega
  have last : n % 10 % 16 = n % 10 := by omega
  simp only [hex, List.flatMap_cons, List.flatMap_nil, List.append_nil, value, digits, units, tens,
    last, List.nil_append, List.singleton_append]

theorem semiOctets_hex (small : n < 100) (os : List Octet) :
    semiOctets (hex (semi n :: os)) = ([digit (n % 10)], [digit (n / 10)], hex os) := by
  have plain : Plain (hex (semi n :: os)) := plain_hex _
  have visible : ∀ c ∈ hex (semi n :: os), isBlank c = false :=
    fun c member => blank_alphanum (plain c member)
  have same : rejoin isBlank ' ' (hex (semi n :: os)) = hex (semi n :: os) :=
    rejoin_of_spaced (spaced_of_plain visible)
      (fun c member => visible c (List.mem_of_mem_head? member))
      fun c member => visible c (List.mem_of_getLast? member)
  have printed : substitute (echo (words isBlank (hex (semi n :: os)))) = hex (semi n :: os) := by
    rw [echo_words, same, unescape_plain fun inside => (alphanum_other (plain _ inside)).2.2.1 rfl,
      substitute_line]
    · intro c member
      constructor <;> (rintro rfl; cases plain _ member)
    · rw [same]
      exact fun first => by cases plain _ (List.mem_of_mem_head? first)
  have parts : hex (semi n :: os) = digit (n % 10) :: digit (n / 10) :: hex os := by
    rw [← List.singleton_append, hex_append, hex_semi small]
    rfl
  rw [semiOctets, printed, parts]
  rfl

variable {date : List Char → List Char → List Char → List Char} (s : Scts)

theorem getSmststamp_eq :
    getSmststamp date (hex s.octets) =
      some (s.timeText (date (two s.year) (short s.month) (short s.day))).text := by
  obtain ⟨year, month, day, hour, minute, second, zone, year_le, month_range, day_range, hour_le,
    minute_le, second_le⟩ := s
  have numeral : short second ≠ [] ∧ (short second).all Char.isDigit = true :=
    ⟨by simp [short], List.all_eq_true.mpr (digits_short (by omega))⟩
  have seconds := decimal_short second (by omega)
  have thousand : thousandfold (noZero [digit (second / 10)] ++ [digit (second % 10)]) =
      some (Nat.toDigits 10 (1000 * second)) := by
    rw [thousandfold]
    change (if short second ≠ [] ∧ (short second).all Char.isDigit = true then _ else _) = _
    rw [if_pos numeral]
    change some (Nat.toDigits 10 (decimal (short second) * 1000)) = _
    rw [seconds, Nat.mul_comm]
  unfold getSmststamp Scts.octets
  dsimp only
  rw [semiOctets_hex (by omega)]
  dsimp only
  rw [semiOctets_hex (by omega)]
  dsimp only
  rw [semiOctets_hex (by omega)]
  dsimp only
  rw [semiOctets_hex (by omega)]
  dsimp only
  rw [semiOctets_hex (by omega)]
  dsimp only
  rw [semiOctets_hex (by omega)]
  dsimp only
  rw [thousand, Option.map_some]
  rfl

end Text

section Octets

variable (s : Scts) {k : Nat}

theorem decimal_digits (n : Nat) : decimal (Nat.toDigits 10 n) = n := by
  have all : ∀ c ∈ Nat.toDigits 10 n, c.isDigit = true := toDigits_isDigit n
  rw [decimal, List.takeWhile_eq_self_iff.mpr all, Nat.ofDigitChars_ten_toDigits]

private theorem decimal_digit : ∀ k < 10, decimal [digit k] = k := by decide +kernel

theorem timeText_range (weekday : 1 ≤ k ∧ k ≤ 7) : (s.timeText [digit k]).InRange := by
  obtain ⟨year, month, day, hour, minute, second, zone, year_le, month_range, day_range, hour_le,
    minute_le, second_le⟩ := s
  have seconds := decimal_digits (1000 * second)
  have minutes := decimal_short minute (by omega)
  have hours := decimal_short hour (by omega)
  have days := decimal_short day (by omega)
  have months := decimal_short month (by omega)
  have years := decimal_two year (by omega)
  have weekdays := decimal_digit k (by omega)
  constructor
  · intro part member
    simp only [TimeText.parts, Scts.timeText, List.mem_cons, List.not_mem_nil, or_false] at member
    rcases member with rfl | rfl | rfl | rfl | rfl | rfl | rfl
    · exact toDigits_isDigit _
    · exact digits_short (by omega)
    · exact digits_short (by omega)
    · exact digits_short (by omega)
    · intro c inside
      obtain rfl := List.mem_singleton.mp inside
      exact digit_facts k (by omega)
    · exact digits_short (by omega)
    · exact digits_two (by omega)
  all_goals
    simp only [Scts.timeText, seconds, minutes, hours, days, months, years, weekdays]
    omega

theorem packed_timeText (weekday : 1 ≤ k ∧ k ≤ 7) :
    packed (s.timeText [digit k]) =
      1000 * s.second + (s.minute + 2 ^ 6) * 2 ^ 16 + s.hour * 2 ^ 24 +
        (s.day + k * 2 ^ 5) * 2 ^ 32 + s.month * 2 ^ 40 + s.year * 2 ^ 48 := by
  obtain ⟨year, month, day, hour, minute, second, zone, year_le, month_range, day_range, hour_le,
    minute_le, second_le⟩ := s
  simp only [packed, Scts.timeText, decimal_digits, decimal_short minute (by omega),
    decimal_short hour (by omega), decimal_short day (by omega), decimal_short month (by omega),
    decimal_two year (by omega), decimal_digit k (by omega)]

theorem read_timeText (weekday : 1 ≤ k ∧ k ≤ 7) :
    readCp56time2a (int2hex (cp56Time2a (s.timeText [digit k]).text 1 0) 7) = s.time k := by
  have range := timeText_range s weekday
  have even : decimal (s.timeText [digit k]).msec = 1000 * s.second := decimal_digits _
  have exact := (cp56Time2a_exact_iff range).mpr (.inr (.inr (by rw [even]; omega)))
  have value := packed_timeText s weekday
  obtain ⟨year, month, day, hour, minute, second, zone, year_le, month_range, day_range, hour_le,
    minute_le, second_le⟩ := s
  dsimp only at value
  have fits : packed (Scts.timeText ⟨year, month, day, hour, minute, second, zone, year_le,
      month_range, day_range, hour_le, minute_le, second_le⟩ [digit k]) < 256 ^ 7 := by
    rw [value]
    omega
  have read := littleEndian_int2hex (by decide : 0 < 7) fits
  rw [exact]
  unfold readCp56time2a Scts.time
  simp only [read, Cp56time2a.mk.injEq]
  have small : 1000 * second ≤ 59000 := by omega
  generalize packed _ = n at value
  generalize 1000 * second = msec at value small
  omega

/-- For every time of a service centre, and whatever weekday `date` finds, the octets that
asduconv packs for the text of `get_smststamp` hold this time in all of their fields. -/
theorem stamp_carried (date : List Char → List Char → List Char → List Char)
    (weekday : 1 ≤ k ∧ k ≤ 7)
    (found : date (two s.year) (short s.month) (short s.day) = [digit k]) :
    ∃ text, getSmststamp date (hex s.octets) = some text ∧
      readCp56time2a (int2hex (cp56Time2a text 1 0) 7) = s.time k := by
  refine ⟨(s.timeText [digit k]).text, ?_, read_timeText s weekday⟩
  rw [getSmststamp_eq, found]

def lastSecond : Scts where
  year := 99
  month := 12
  day := 31
  hour := 23
  minute := 59
  second := 59
  zone := octet 0
  year_le := Nat.le_refl 99
  month_range := ⟨Nat.le_add_left 1 11, Nat.le_refl 12⟩
  day_range := ⟨Nat.le_add_left 1 30, Nat.le_refl 31⟩
  hour_le := Nat.le_refl 23
  minute_le := Nat.le_refl 59
  second_le := Nat.le_refl 59

theorem stamp_carried_lastSecond :
    ∃ text, getSmststamp (fun _ _ _ => ['4']) (hex lastSecond.octets) = some text ∧
      readCp56time2a (int2hex (cp56Time2a text 1 0) 7) = lastSecond.time 4 :=
  stamp_carried lastSecond (fun _ _ _ => ['4']) (by decide) rfl

end Octets

end IecUtils.Sms.Stamp
