/- Module: IecUtils/Sms/Submit
   source: poll_sms -n with send_smspdu, get_destaddr, dectohex and ucs2encode of scripts/utils/sms_utils
   digest: Which messages the modem is given as they were meant: those to eleven digits that one part holds. -/

import IecUtils.Foundation.Scan
import IecUtils.Sms.Pdu
import IecUtils.Sms.Shell
import Mathlib.Data.Bool.AllAny

set_option autoImplicit false
set_option relaxedAutoImplicit false

namespace IecUtils.Sms.Submit

open IecUtils.Foundation.Builtins
open IecUtils.Foundation.Hex
open IecUtils.Foundation.Scan (digit_range)
open IecUtils.Sms.Shell
open IecUtils.Sms.Pdu

section Source

/-- `tr -d '+'`. -/
def trPlus (number : List Char) : List Char := number.filter fun c => c ≠ '+'

def getDestaddr (number : List Char) : List Char :=
  let number := trPlus number
  swapPairs (if number.length % 2 > 0 then number ++ ['F'] else number)

/-- Digits of base sixteen as `bc` prints them. -/
def dectohex (n : Nat) : List Char :=
  if 15 < n then digits (size n) n else '0' :: digits (size n) n

/-- `iconv -t UCS-2BE` ends at a character that has no two octets. -/
def ucs2be (text : List Char) : List Octet :=
  (text.takeWhile fun c => c.toNat < 2 ^ 16).flatMap fun c =>
    [octet (c.toNat / 256), octet (c.toNat % 256)]

/-- `xxd -p -u -c 256`, with `i` octets in the line. -/
def xxd (i : Nat) : List Octet → List Char
  | [] => []
  | o :: os =>
      if i = 256 then '\n' :: (hex [o] ++ xxd 1 os)
      else hex [o] ++ xxd (i + 1) os

/-- What `ucs2encode` leaves in a variable, from a line that it reads. -/
def ucs2encode (stdin : List Char) : List Char := xxd 0 (ucs2be (readVar stdin))

/-- Operands that `expr` does not take for a string behind `length`. -/
def operators : List (List Char) :=
  [['+'], ['('], [')'], "length".toList, "match".toList, "index".toList, "substr".toList]

/-- `expr length "$smstext"`. -/
def exprLength (smstext : List Char) : Option Nat :=
  if operators.contains smstext then none else some smstext.length

theorem exprLength_of_notMem {smstext : List Char} (proper : smstext ∉ operators) :
    exprLength smstext = some smstext.length :=
  if_neg fun inside => proper (List.contains_iff_mem.mp inside)

def sendSmspdu (number stdin : List Char) : Nat × List Char :=
  let smstext := readVar stdin
  let sca := ['0', '0']
  let sb := ['0', '1']
  let mr := ['0', '0']
  let da := ['0', 'B', '9', '1'] ++ getDestaddr number
  let pid := ['0', '0']
  let dcs := ['0', '8']
  -- without a length `$((2 * ))` ends the subshell, and UDL is empty
  let udl := (exprLength smstext).elim [] fun length => dectohex (2 * length)
  let ud := ucs2encode (echo [smstext])
  let pdu := sca ++ sb ++ mr ++ da ++ pid ++ dcs ++ udl ++ ud
  ((pdu.length - 2) / 2, pdu)

/-- `poll_sms -n`. -/
def pollSms (number stdin : List Char) : Nat × List Char :=
  sendSmspdu number (readVar stdin ++ ['\n'])

end Source

section Purpose

def isHex (c : Char) : Bool := c.isDigit || ('A' ≤ c && c ≤ 'F')

def octets : List Char → Option (List Nat)
  | [] => some []
  | [_] => none
  | a :: b :: cs =>
      if isHex a && isHex b then (octets cs).map ((value a * 16 + value b) :: ·) else none

def semiDigits (os : List Nat) : List Char := os.flatMap fun o => [digit (o % 16), digit (o / 16)]

def ucs2 : List Nat → List Char
  | a :: b :: os => Char.ofNat (a * 256 + b) :: ucs2 os
  | _ => []

/-- A message without a validity period to an international number, in UCS2, behind an empty
address of the centre, as it is read from `len` octets: the number and the text. User data has 140
octets at most. -/
def readSubmit (len : Nat) (pdu : List Char) : Option (List Char × List Char) :=
  (octets pdu).bind fun os =>
    match os with
    | 0 :: 1 :: _ :: l :: 145 :: rest =>
        if os.length = len + 1 then
          match rest.drop ((l + 1) / 2) with
          | _ :: 8 :: udl :: ud =>
              if udl ≤ 140 ∧ ud.length = udl then
                some ((semiDigits (rest.take ((l + 1) / 2))).take l, ucs2 ud)
              else none
          | _ => none
        else none
    | _ => none

end Purpose

section Reading

theorem octets_append {as : List Char} {os : List Nat} (first : octets as = some os)
    (bs : List Char) : octets (as ++ bs) = (octets bs).map (os ++ ·) := by
  induction as using octets.induct generalizing os with
  | case1 =>
    obtain rfl := Option.some.inj first
    simp
  | case2 a => cases first
  | case3 a b cs hexes ih =>
    rw [octets, if_pos hexes] at first
    obtain ⟨rest, parsed, rfl⟩ := Option.map_eq_some_iff.mp first
    rw [List.cons_append, List.cons_append, octets, if_pos hexes, ih parsed]
    cases octets bs <;> rfl
  | case4 a b cs other =>
    rw [octets, if_neg other] at first
    cases first

private theorem digit_facts : ∀ n < 16, isHex (digit n) = true ∧ value (digit n) = n := by decide

theorem octets_hex (os : List Octet) : octets (hex os) = some (os.map Fin.val) := by
  induction os with
  | nil => rfl
  | cons o os ih =>
    have high := digit_facts (o.val / 16 % 16) (Nat.mod_lt _ (by decide))
    have low := digit_facts (o.val % 16) (Nat.mod_lt _ (by decide))
    have parts : hex (o :: os) = digit (o.val / 16 % 16) :: digit (o.val % 16) :: hex os := rfl
    have whole : o.val / 16 % 16 * 16 + o.val % 16 = o.val := by omega
    rw [parts, octets, if_pos (by simp [high.1, low.1]), ih, high.2, low.2, whole]
    rfl

def Semi (c : Char) : Prop := ∃ n < 16, c = digit n

theorem semi_digit {c : Char} (isDigit : c.isDigit = true) : Semi c := by
  obtain ⟨low, high⟩ := digit_range isDigit
  refine ⟨c.toNat - 48, by omega, ?_⟩
  have whole : 48 + (c.toNat - 48) = c.toNat := by omega
  rw [digit, if_pos (by omega), whole, Char.ofNat_toNat]

theorem length_swapPairs (cs : List Char) : (swapPairs cs).length = cs.length := by
  induction cs using swapPairs.induct with
  | case1 a b cs ih => simp [swapPairs, ih]
  | case2 cs other =>
    match cs with
    | [] => rfl
    | [a] => rfl
    | a :: b :: cs => exact absurd rfl (other a b cs)

theorem octets_swapPairs {cs : List Char} (even : cs.length % 2 = 0) (semis : ∀ c ∈ cs, Semi c) :
    ∃ os, octets (swapPairs cs) = some os ∧ 2 * os.length = cs.length ∧ semiDigits os = cs := by
  induction cs using swapPairs.induct with
  | case1 a b cs ih =>
    obtain ⟨first, second, rest⟩ := by simpa only [List.forall_mem_cons] using semis
    obtain ⟨m, low, rfl⟩ := first
    obtain ⟨n, high, rfl⟩ := second
    obtain ⟨os, parsed, size, same⟩ := ih (by simp only [List.length_cons] at even; omega) rest
    have lower := digit_facts m low
    have upper := digit_facts n high
    refine ⟨(n * 16 + m) :: os, ?_, by simp only [List.length_cons]; omega, ?_⟩
    · rw [swapPairs, octets, if_pos (by simp [lower.1, upper.1]), parsed, upper.2, lower.2]
      rfl
    · have lowPart : (n * 16 + m) % 16 = m := by omega
      have highPart : (n * 16 + m) / 16 = n := by omega
      rw [semiDigits, List.flatMap_cons, lowPart, highPart]
      exact congrArg _ same
  | case2 cs other =>
    match cs with
    | [] => exact ⟨[], rfl, rfl, rfl⟩
    | [a] => cases even
    | a :: b :: cs => exact absurd rfl (other a b cs)

theorem octets_size {cs : List Char} {os : List Nat} (parsed : octets cs = some os) :
    cs.length = 2 * os.length ∧ ∀ c ∈ cs, isHex c = true := by
  induction cs using octets.induct generalizing os with
  | case1 =>
    obtain rfl := Option.some.inj parsed
    exact ⟨rfl, nofun⟩
  | case2 a => cases parsed
  | case3 a b cs hexes ih =>
    rw [octets, if_pos hexes] at parsed
    obtain ⟨rest, behind, rfl⟩ := Option.map_eq_some_iff.mp parsed
    obtain ⟨size, digits⟩ := ih behind
    obtain ⟨first, second⟩ := Bool.and_eq_true_iff.mp hexes
    refine ⟨by simp only [List.length_cons]; omega, ?_⟩
    exact List.forall_mem_cons.mpr ⟨first, List.forall_mem_cons.mpr ⟨second, digits⟩⟩
  | case4 a b cs other =>
    rw [octets, if_neg other] at parsed
    cases parsed

theorem xxd_of_free (i : Nat) (os : List Octet) (free : '\n' ∉ xxd i os) : xxd i os = hex os := by
  induction os generalizing i with
  | nil => rfl
  | cons o os ih =>
    rw [xxd] at free ⊢
    split at free
    · exact absurd List.mem_cons_self free
    · rename_i inside
      have behind : '\n' ∉ xxd (i + 1) os := fun later => free (List.mem_append_right _ later)
      rw [if_neg inside, ih (i + 1) behind, ← hex_append, List.singleton_append]

theorem length_ucs2be_le (text : List Char) : (ucs2be text).length ≤ 2 * text.length := by
  have taken := (List.takeWhile_sublist (fun c => decide (c.toNat < 2 ^ 16)) (l := text)).length_le
  have pairs (cs : List Char) : (cs.flatMap fun c =>
      [octet (c.toNat / 256), octet (c.toNat % 256)]).length = 2 * cs.length := by
    induction cs with
    | nil => rfl
    | cons c cs ih =>
      simp only [List.flatMap_cons, List.length_append, ih, List.length_cons, List.length_nil]
      omega
  rw [ucs2be, pairs]
  omega

theorem xxd_hex (i : Nat) (os : List Octet) (short : i + os.length ≤ 256) :
    xxd i os = hex os := by
  induction os generalizing i with
  | nil => rfl
  | cons o os ih =>
    rw [List.length_cons] at short
    rw [xxd, if_neg (by omega), ih (i + 1) (by omega), ← hex_append, List.singleton_append]

theorem ucs2_ucs2be {text : List Char} (plane : ∀ c ∈ text, c.toNat < 2 ^ 16) :
    (ucs2be text).length = 2 * text.length ∧ ucs2 ((ucs2be text).map Fin.val) = text := by
  have all : text.takeWhile (fun c => c.toNat < 2 ^ 16) = text :=
    List.takeWhile_eq_self_iff.mpr fun c member => decide_eq_true (plane c member)
  rw [ucs2be, all]
  clear all
  induction text with
  | nil => exact ⟨rfl, rfl⟩
  | cons c text ih =>
    obtain ⟨now, later⟩ := List.forall_mem_cons.mp plane
    obtain ⟨size, same⟩ := ih later
    constructor
    · simp only [List.flatMap_cons, List.length_append, size, List.length_cons, List.length_nil]
      omega
    · have whole : (octet (c.toNat / 256)).val * 256 + (octet (c.toNat % 256)).val = c.toNat := by
        simp only [octet, Fin.ofNat]
        omega
      have char : Char.ofNat c.toNat = c := Char.ofNat_toNat c
      simp only [List.flatMap_cons, List.map_cons, List.cons_append, List.nil_append, ucs2, whole,
        char]
      rw [same]

theorem length_semiDigits (os : List Nat) : (semiDigits os).length = 2 * os.length := by
  induction os with
  | nil => rfl
  | cons o os ih =>
    rw [semiDigits, List.flatMap_cons, List.length_append, ← semiDigits, ih, List.length_cons]
    simp only [List.length_cons, List.length_nil]
    omega

theorem length_ucs2 (os : List Nat) : (ucs2 os).length = os.length / 2 := by
  induction os using ucs2.induct with
  | case1 a b os ih =>
    rw [ucs2, List.length_cons, ih, List.length_cons, List.length_cons]
    omega
  | case2 os other =>
    match os with
    | [] => rfl
    | [a] => simp [ucs2]
    | a :: b :: os => exact absurd rfl (other a b os)

end Reading

section Sending

variable {number text : List Char}

theorem dectohex_octet : ∀ n < 256, dectohex n = hex [octet n] := by decide +kernel

def readText (number : List Char) : List Nat → Option (List Char × List Char)
  | udl :: ud => if udl ≤ 140 ∧ ud.length = udl then some (number, ucs2 ud) else none
  | [] => none

theorem readSubmit_eq (numeral : ∀ c ∈ number, c.isDigit = true ∨ c = '+')
    (eleven : (trPlus number).length = 11) {len : Nat} (data : List Char) {pdu : List Char}
    (parts : pdu = ['0', '0', '0', '1', '0', '0', '0', 'B', '9', '1'] ++
      (getDestaddr number ++ (['0', '0', '0', '8'] ++ data))) (size : len = (pdu.length - 2) / 2) :
    readSubmit len pdu = (octets data).bind (readText (trPlus number)) := by
  have semis : ∀ c ∈ trPlus number ++ ['F'], Semi c := by
    intro c member
    rcases List.mem_append.mp member with own | filler
    · obtain ⟨inside, other⟩ := List.mem_filter.mp own
      have plus : c ≠ '+' := of_decide_eq_true other
      exact semi_digit ((numeral c inside).resolve_right plus)
    · obtain rfl := List.mem_singleton.mp filler
      exact ⟨15, by decide, rfl⟩
  obtain ⟨address, parsed, addressSize, same⟩ :=
    octets_swapPairs (by rw [List.length_append, eleven]; rfl) semis
  have destaddr : getDestaddr number = swapPairs (trPlus number ++ ['F']) := by
    rw [getDestaddr, eleven]
    rfl
  have six : address.length = 6 := by
    rw [List.length_append, eleven] at addressSize
    simp only [List.length_cons, List.length_nil] at addressSize
    omega
  have exchanged : (getDestaddr number).length = 12 := by
    rw [destaddr, length_swapPairs, List.length_append, eleven]
    rfl
  have head : octets ['0', '0', '0', '1', '0', '0', '0', 'B', '9', '1'] =
      some [0, 1, 0, 11, 145] := by decide
  have scheme : octets ['0', '0', '0', '8'] = some [0, 8] := by decide
  rw [readSubmit, parts, octets_append head, destaddr, octets_append parsed, octets_append scheme]
  cases whole : octets data with
  | none => rfl
  | some os =>
    have digits := (octets_size whole).1
    have len_eq : ([0, 1, 0, 11, 145] ++ (address ++ ([0, 8] ++ os))).length = len + 1 := by
      rw [size, parts]
      simp only [List.length_append, List.length_cons, List.length_nil, exchanged, six, digits]
      omega
    have front : (address ++ ([0, 8] ++ os)).take 6 = address := List.take_left' six
    have behind : (address ++ ([0, 8] ++ os)).drop 6 = 0 :: 8 :: os := List.drop_left' six
    have number_eq : (semiDigits address).take 11 = trPlus number := by
      rw [same, List.take_left' eleven]
    change (if ([0, 1, 0, 11, 145] ++ (address ++ ([0, 8] ++ os))).length = len + 1 then
      match (address ++ ([0, 8] ++ os)).drop 6 with
      | _ :: 8 :: udl :: ud =>
          if udl ≤ 140 ∧ ud.length = udl then
            some ((semiDigits ((address ++ ([0, 8] ++ os)).take 6)).take 11, ucs2 ud)
          else none
      | _ => none
    else none) = _
    rw [if_pos len_eq, behind, front, number_eq]
    cases os <;> rfl

theorem eleven_of_read {len : Nat} {cs number text : List Char}
    (read : readSubmit len (['0', '0', '0', '1', '0', '0', '0', 'B', '9', '1'] ++ cs) =
      some (number, text)) : number.length = 11 := by
  have head : octets ['0', '0', '0', '1', '0', '0', '0', 'B', '9', '1'] =
      some [0, 1, 0, 11, 145] := by decide
  rw [readSubmit, octets_append head] at read
  cases whole : octets cs with
  | none =>
    rw [whole] at read
    cases read
  | some rest =>
    rw [whole] at read
    change (if ([0, 1, 0, 11, 145] ++ rest).length = len + 1 then
      match rest.drop 6 with
      | _ :: 8 :: udl :: ud =>
          if udl ≤ 140 ∧ ud.length = udl then
            some ((semiDigits (rest.take 6)).take 11, ucs2 ud)
          else none
      | _ => none
    else none) = _ at read
    split at read
    · split at read
      · rename_i pid udl ud parts
        split at read
        · obtain ⟨rfl, _⟩ := Prod.mk.inj (Option.some.inj read)
          have size := congrArg List.length parts
          simp only [List.length_drop, List.length_cons] at size
          rw [List.length_take, length_semiDigits, List.length_take]
          omega
        · cases read
      · cases read
    · cases read

def dataOf (smstext : List Char) : List Char :=
  ((exprLength smstext).elim [] fun length => dectohex (2 * length)) ++ ucs2encode (echo [smstext])

theorem pollSms_parts (number stdin : List Char) :
    (pollSms number stdin).2 = ['0', '0', '0', '1', '0', '0', '0', 'B', '9', '1'] ++
      (getDestaddr number ++ (['0', '0', '0', '8'] ++
        dataOf (readVar (readVar stdin ++ ['\n'])))) := by
  simp [pollSms, sendSmspdu, dataOf]

private theorem dataOf_operators : ∀ w ∈ operators, ∀ os ∈ octets (dataOf w),
    os.head? = some 0 ∧ 2 ≤ os.length := by
  decide +kernel

/-- The text that is read is not longer than the line that `ucs2encode` was given, and of seventy
characters at most; a text that `expr` takes for its own is not read. -/
theorem length_of_readText {smstext number text : List Char} {os : List Nat}
    (parsed : octets (dataOf smstext) = some os) (read : readText number os = some (number, text))
    (short : smstext.length ≤ text.length) :
    smstext ∉ operators ∧ text.length ≤ 70 ∧ text.length ≤ (readVar (echo [smstext])).length := by
  cases os with
  | nil => cases read
  | cons udl ud =>
    rw [readText] at read
    split at read
    · rename_i fits
      have text_eq : ucs2 ud = text := (Prod.mk.inj (Option.some.inj read)).2
      have text_size : text.length = ud.length / 2 := by rw [← text_eq, length_ucs2]
      have proper : smstext ∉ operators := by
        intro own
        obtain ⟨zero, more⟩ := dataOf_operators smstext own _ parsed
        obtain rfl : udl = 0 := Option.some.inj zero
        rw [List.length_cons] at more
        omega
      obtain ⟨size, digits⟩ := octets_size parsed
      have plain : ucs2encode (echo [smstext]) = hex (ucs2be (readVar (echo [smstext]))) := by
        apply xxd_of_free
        intro feed
        cases digits _ (List.mem_append_right _ feed)
      have bound := length_ucs2be_le (readVar (echo [smstext]))
      have octet : dectohex (2 * smstext.length) = hex [Pdu.octet (2 * smstext.length)] :=
        dectohex_octet _ (by omega)
      rw [dataOf, exprLength_of_notMem proper, Option.elim_some, octet, plain, List.length_append,
        length_hex, length_hex, List.length_cons] at size
      refine ⟨proper, by omega, ?_⟩
      simp only [List.length_cons, List.length_nil] at size
      omega
    · cases read

/-- Whatever the number and the text: the modem reads what was typed, if and only if the number has
eleven digits, and the text seventy characters at most, which `read`, `echo` and `expr` take as
they are. -/
theorem submit_read_iff (numeral : ∀ c ∈ number, c.isDigit = true ∨ c = '+')
    (plane : ∀ c ∈ text, c.toNat < 2 ^ 16) :
    readSubmit (pollSms number (text ++ ['\n'])).1 (pollSms number (text ++ ['\n'])).2 =
        some (trPlus number, text) ↔
      (trPlus number).length = 11 ∧ text.length ≤ 70 ∧ Intact text ∧ text ≠ ['-', 'n'] ∧
        text ∉ operators := by
  have parts := pollSms_parts number (text ++ ['\n'])
  have size : (pollSms number (text ++ ['\n'])).1 =
      ((pollSms number (text ++ ['\n'])).2.length - 2) / 2 := rfl
  constructor
  · intro read
    have eleven : (trPlus number).length = 11 := by
      rw [parts] at read
      exact eleven_of_read read
    rw [readSubmit_eq numeral eleven _ parts size] at read
    obtain ⟨os, parsed, behind⟩ := Option.bind_eq_some_iff.mp read
    have first := length_readVar_le text
    have second := length_readVar_le (readVar (text ++ ['\n']))
    have third := length_readVar_echo_le (readVar (readVar (text ++ ['\n']) ++ ['\n']))
    obtain ⟨proper, short, long⟩ := length_of_readText parsed behind (second.trans first)
    have intact : Intact text := intact_of_readVar (by omega)
    rw [readVar_intact intact, readVar_intact intact] at proper long
    refine ⟨eleven, short, intact, ?_, proper⟩
    rintro rfl
    revert long
    decide
  · rintro ⟨eleven, short, intact, option, proper⟩
    have printed : echo [text] = text ++ ['\n'] :=
      echo_plain (fun inside => (intact.plain _ inside).1 rfl) option
    obtain ⟨count, back⟩ := ucs2_ucs2be plane
    have fields : dataOf (readVar (readVar (text ++ ['\n']) ++ ['\n'])) =
        hex (octet (2 * text.length) :: ucs2be text) := by
      rw [readVar_intact intact, readVar_intact intact, dataOf, exprLength_of_notMem proper,
        Option.elim_some, dectohex_octet _ (by omega), ucs2encode, printed, readVar_intact intact,
        xxd_hex 0 _ (by omega), ← hex_append, List.singleton_append]
    have udl : (octet (2 * text.length)).val = 2 * text.length := Nat.mod_eq_of_lt (by omega)
    rw [readSubmit_eq numeral eleven _ parts size, fields, octets_hex, Option.bind_some,
      List.map_cons, udl, readText, if_pos ⟨by omega, by rw [List.length_map, count]⟩, back]

/-- A number with a plus, and a text of Cyrillic letters. -/
theorem submit_read_cyrillic :
    readSubmit (pollSms "+79042334437".toList ['П', 'р', 'и', 'в', 'е', 'т', '\n']).1
        (pollSms "+79042334437".toList ['П', 'р', 'и', 'в', 'е', 'т', '\n']).2 =
      some ("79042334437".toList, ['П', 'р', 'и', 'в', 'е', 'т']) := by
  have numeral : ∀ c ∈ "+79042334437".toList, c.isDigit = true ∨ c = '+' :=
    List.all_iff_forall_prop.mp (by decide)
  have plane : ∀ c ∈ ['П', 'р', 'и', 'в', 'е', 'т'], c.toNat < 2 ^ 16 :=
    List.all_iff_forall_prop.mp (by decide)
  have eleven : trPlus "+79042334437".toList = "79042334437".toList := by decide
  have read := (submit_read_iff numeral plane).mpr
    ⟨by decide, by decide, by decide, by decide, by decide⟩
  rwa [eleven] at read

end Sending

end IecUtils.Sms.Submit
