/- Module: IecUtils/Sms/Report
   source: scripts/parsers/ccu825_sms, with get_smststamp of scripts/utils/sms_utils and scripts/asduconv behind it
   digest: What a controller reports in a message arrives as information objects with the time of the message. -/

import IecUtils.Scripts.Interrogation
import IecUtils.Sms.Stamp
import Mathlib.Data.Bool.AllAny

set_option autoImplicit false
set_option relaxedAutoImplicit false

namespace IecUtils.Sms.Report

open IecUtils.Foundation.Hex
open IecUtils.Foundation.Scan (toDigits_isDigit)
open IecUtils.Foundation.Words
open IecUtils.Asdu.Encoding
open IecUtils.Asdu.Assembler hiding mainRule
open IecUtils.Asdu.Readback hiding asduconv
open IecUtils.Asdu.Decode
open IecUtils.Asdu.Timestamp
open IecUtils.Scripts.Interrogation
open IecUtils.Sms.Stamp

section Source

/-- `sed 's/\r$//'`. -/
def stripCr (line : List Char) : List Char :=
  if line.getLast? = some '\r' then line.dropLast else line

/-- The variables of the awk program that a line leaves to the next ones, and what was printed. -/
structure Awk where
  tiValue : List Char
  count : Nat
  out : List (List Char)

/-- `printf("%s %s %s %s %s %s\n", COMADDR, objaddr, type, value, "-", TIMESTAMP)`. -/
def printfRecord (comaddr timestamp objaddr type value : List Char) : List Char :=
  [' '].intercalate [comaddr, objaddr, type, value, ['-'], timestamp]

variable (comaddr timestamp : List Char)

def printTi (objaddr value : List Char) (s : Awk) : Awk :=
  { s with
    tiValue := value
    out := s.out ++ [printfRecord comaddr timestamp objaddr ['3', '6'] value] }

def printTs (objaddr value : List Char) (s : Awk) : Awk :=
  if objaddr = ['0'] then s
  else
    { s with
      count := s.count + 1
      out := s.out ++ [printfRecord comaddr timestamp objaddr ['3', '0'] value] }

def mainRule (s : Awk) (line : List Char) : Awk :=
  let line := line.map fun c => if c = ',' then '.' else c
  if ['T', 'C'] <+: line then
    printTs comaddr timestamp ((field 1 line).drop 2) (field 2 line) s
  else if ['P', 'O', 'W', 'E', 'R'] <:+: line then
    if field 2 line = ['O', 'K'] then
      printTs comaddr timestamp ['1', '7'] ['0'] <| printTi comaddr timestamp ['3']
        (substr (field 3 line) 2 ((field 3 line).length - 3)) s
    else if field 2 line = ['F', 'A', 'U', 'L', 'T'] then
      printTs comaddr timestamp ['1', '7'] ['1'] (printTi comaddr timestamp ['3'] ['0'] s)
    else
      -- `ti_value` is what an earlier line left
      printTs comaddr timestamp ['1', '7'] ['0'] (printTi comaddr timestamp ['3'] s.tiValue s)
  else if ['T', 'E', 'M', 'P', 'E', 'R', 'A', 'T'] <:+: line then
    printTi comaddr timestamp ['1'] (substr (field 2 line) 1 ((field 2 line).length - 1)) s
  else if ['B', 'A', 'T', 'T', 'E', 'R', 'Y'] <:+: line then
    let tiValue := substr (field 2 line) 1 ((field 2 line).length - 1)
    printTs comaddr timestamp ['1', '8'] (if tiValue = ['1', '0', '0'] then ['0'] else ['1']) <|
      printTi comaddr timestamp ['2'] tiValue s
  else s

def ccu825Sms (lines : List (List Char)) : List (List Char) × Nat :=
  let s := (lines.map stripCr).foldl (mainRule comaddr timestamp) ⟨[], 0, []⟩
  (s.out, if s.count = 0 then 2 else 0)

end Source

section Purpose

/-- A numeral as the controller writes it. -/
structure Numeral where
  text : List Char
  nonempty : text ≠ []
  chars : ∀ c ∈ text, c.isDigit = true ∨ c ∈ ['-', '+', '.', ',']

def Numeral.pointed (v : Numeral) : List Char := v.text.map fun c => if c = ',' then '.' else c

/-- What a controller reports: an input, the voltage or the fault of the supply, its temperature,
the charge of its battery. -/
inductive Item where
  | input (n : Nat) (on : Bool)
  | power (voltage : Numeral)
  | fault
  | temperature (degrees : Numeral)
  | battery (percent : Numeral)

def Item.line : Item → List Char
  | .input n on => ['T', 'C'] ++ Nat.toDigits 10 n ++ ' ' :: [if on then '1' else '0']
  | .power v =>
      ['P', 'O', 'W', 'E', 'R', ' ', 'O', 'K', ' '] ++ ('(' :: v.text ++ ['V', ')'])
  | .fault => ['P', 'O', 'W', 'E', 'R', ' ', 'F', 'A', 'U', 'L', 'T']
  | .temperature v => ['T', 'E', 'M', 'P', 'E', 'R', 'A', 'T', ' '] ++ (v.text ++ ['C'])
  | .battery v => ['B', 'A', 'T', 'T', 'E', 'R', 'Y', ' '] ++ (v.text ++ ['%'])

/-- The value of an object: a single point, or a numeral. -/
inductive Value where
  | single (on : Bool)
  | measured (text : List Char)
  deriving DecidableEq

def Item.values : Item → List (Nat × Value)
  | .input n on => [(n, .single on)]
  | .power v => [(3, .measured v.pointed), (17, .single false)]
  | .fault => [(3, .measured ['0']), (17, .single true)]
  | .temperature v => [(1, .measured v.pointed)]
  | .battery v => [(2, .measured v.pointed), (18, .single (v.pointed ≠ ['1', '0', '0']))]

/-- An input has a number an object address can hold, and not 0. -/
def Item.Addressed : Item → Prop
  | .input n _ => 1 ≤ n ∧ n < 2 ^ 24
  | _ => True

def Value.type : Value → AsduType
  | .single _ => .spTb
  | .measured _ => .meTf

/-- The information element of a value, valid, with the octets of a time tag. -/
def Value.element (render : List Char → List Char) (time : List Char) : Value → List Char
  | .single on => digits 2 (if on then 1 else 0) ++ time
  | .measured text => float2hex .one (render text) ++ digits 2 0 ++ time

def Value.text : Value → List Char
  | .single on => [if on then '1' else '0']
  | .measured text => text

def sent (i : Item × Bool) : List Char := i.1.line ++ if i.2 then ['\r'] else []

end Purpose

section Parser

variable (comaddr timestamp : List Char)

def records (i : Item) : List (List Char) :=
  i.values.map fun p => printfRecord comaddr timestamp (Nat.toDigits 10 p.1)
    (Nat.toDigits 10 p.2.type.code) p.2.text

def Item.singles (i : Item) : Nat := i.values.countP fun p => p.2.type = .spTb

theorem pointed_char {v : Numeral} {c : Char} (member : c ∈ v.pointed) :
    c.isDigit = true ∨ c ∈ ['-', '+', '.'] := by
  obtain ⟨d, inside, rfl⟩ := List.mem_map.mp member
  rcases v.chars d inside with digit | sign
  · have other : d ≠ ',' := by
      rintro rfl
      cases digit
    rw [if_neg other]
    exact .inl digit
  · simp only [List.mem_cons, List.not_mem_nil, or_false] at sign
    rcases sign with rfl | rfl | rfl | rfl <;> simp

theorem pointed_visible {v : Numeral} {c : Char} (member : c ∈ v.pointed) : blank c = false := by
  rcases pointed_char member with digit | sign
  · by_contra isBlank
    simp only [blank, Bool.not_eq_false, Bool.or_eq_true, decide_eq_true_eq] at isBlank
    rcases isBlank with (rfl | rfl) | rfl <;> cases digit
  · simp only [List.mem_cons, List.not_mem_nil, or_false] at sign
    rcases sign with rfl | rfl | rfl <;> rfl

theorem pointed_free {v : Numeral} {c : Char} (letter : c.isDigit = false)
    (other : c ∉ ['-', '+', '.']) : c ∉ v.pointed := by
  intro member
  rcases pointed_char member with digit | sign
  · rw [letter] at digit
    cases digit
  · exact other sign

theorem pointed_nonempty (v : Numeral) : v.pointed ≠ [] := by
  unfold Numeral.pointed
  rw [Ne, List.map_eq_nil_iff]
  exact v.nonempty

theorem map_digits (n : Nat) :
    (Nat.toDigits 10 n).map (fun c => if c = ',' then '.' else c) = Nat.toDigits 10 n := by
  refine (List.map_congr_left fun c member => ?_).trans (List.map_id _)
  have digit := toDigits_isDigit n c member
  refine if_neg ?_
  rintro rfl
  cases digit

theorem stripCr_sent (i : Item × Bool) : stripCr (sent i) = i.1.line := by
  obtain ⟨item, cr⟩ := i
  have last : ∃ front c, item.line = front ++ [c] ∧ c ≠ '\r' := by
    cases item with
    | input n on =>
      refine ⟨['T', 'C'] ++ Nat.toDigits 10 n ++ [' '], if on then '1' else '0', ?_, ?_⟩
      · simp [Item.line]
      · cases on <;> decide
    | power v =>
      exact ⟨['P', 'O', 'W', 'E', 'R', ' ', 'O', 'K', ' '] ++ ('(' :: v.text ++ ['V']), ')',
        by simp [Item.line], by decide⟩
    | fault => exact ⟨['P', 'O', 'W', 'E', 'R', ' ', 'F', 'A', 'U', 'L'], 'T', rfl, by decide⟩
    | temperature v =>
      exact ⟨['T', 'E', 'M', 'P', 'E', 'R', 'A', 'T', ' '] ++ v.text, 'C', by simp [Item.line],
        by decide⟩
    | battery v =>
      exact ⟨['B', 'A', 'T', 'T', 'E', 'R', 'Y', ' '] ++ v.text, '%', by simp [Item.line],
        by decide⟩
  obtain ⟨front, c, line, other⟩ := last
  cases cr with
  | true => simp [stripCr, sent]
  | false => simp [stripCr, sent, line, other]

theorem rule_input (s : Awk) {n : Nat} (some : 1 ≤ n) (on : Bool) :
    mainRule comaddr timestamp s (Item.input n on).line =
      ⟨s.tiValue, s.count + 1, s.out ++ records comaddr timestamp (.input n on)⟩ := by
  have text : (Item.input n on).line.map (fun c => if c = ',' then '.' else c) =
      [' '].intercalate [['T', 'C'] ++ Nat.toDigits 10 n, [if on then '1' else '0']] := by
    have digits := map_digits n
    cases on <;> simp [Item.line, digits, List.intercalate_cons_cons]
  have parts : words blank ([' '].intercalate
      [['T', 'C'] ++ Nat.toDigits 10 n, [if on then '1' else '0']]) =
        [['T', 'C'] ++ Nat.toDigits 10 n, [if on then '1' else '0']] := by
    apply words_intercalate rfl
    simp only [List.forall_mem_cons, List.mem_append]
    refine ⟨⟨by simp, ?_⟩, ⟨by simp, ?_⟩, nofun⟩
    · rintro c (letter | digit)
      · exact (List.all_iff_forall_prop (p := fun c => blank c = false)).mp rfl c letter
      · exact (plain_toDigits n).visible c digit
    · cases on <;> simp [blank]
  have tc : ['T', 'C'] <+: [' '].intercalate
      [['T', 'C'] ++ Nat.toDigits 10 n, [if on then '1' else '0']] := by
    rw [List.intercalate_cons_cons, List.append_assoc, List.append_assoc]
    exact List.prefix_append _ _
  have other : Nat.toDigits 10 n ≠ ['0'] := by
    intro zero
    have value := decimal_toDigits n
    rw [zero] at value
    have none : decimal ['0'] = 0 := rfl
    omega
  unfold mainRule
  dsimp only
  rw [text, if_pos tc]
  simp only [field, parts]
  simp [printTs, other, records, Item.values, Value.type, Value.text, AsduType.code]
  rfl

private theorem words_pointed (v : Numeral) {front back : List Char} {ws : List (List Char)}
    (plain : ∀ w ∈ ws, w ≠ [] ∧ ∀ c ∈ w, blank c = false)
    (before : ∀ c ∈ front, blank c = false) (behind : ∀ c ∈ back, blank c = false) :
    words blank ([' '].intercalate (ws ++ [front ++ v.pointed ++ back])) =
      ws ++ [front ++ v.pointed ++ back] := by
  apply words_intercalate rfl
  intro w member
  rcases List.mem_append.mp member with old | new
  · exact plain w old
  · obtain rfl := List.mem_singleton.mp new
    refine ⟨by simp [pointed_nonempty v], ?_⟩
    intro c inside
    rcases List.mem_append.mp inside with first | last
    · rcases List.mem_append.mp first with first | own
      · exact before c first
      · exact pointed_visible own
    · exact behind c last

theorem rule_power (s : Awk) (v : Numeral) :
    mainRule comaddr timestamp s (Item.power v).line =
      ⟨v.pointed, s.count + 1, s.out ++ records comaddr timestamp (.power v)⟩ := by
  have text : (Item.power v).line.map (fun c => if c = ',' then '.' else c) =
      [' '].intercalate ([['P', 'O', 'W', 'E', 'R'], ['O', 'K']] ++
        [['('] ++ v.pointed ++ ['V', ')']]) := by
    simp [Item.line, Numeral.pointed, List.intercalate_cons_cons]
  have parts : words blank ([' '].intercalate ([['P', 'O', 'W', 'E', 'R'], ['O', 'K']] ++
      [['('] ++ v.pointed ++ ['V', ')']])) = [['P', 'O', 'W', 'E', 'R'], ['O', 'K']] ++
        [['('] ++ v.pointed ++ ['V', ')']] :=
    words_pointed v (by simp [blank]) (by simp [blank]) (by simp [blank])
  have tc : ¬ ['T', 'C'] <+: [' '].intercalate ([['P', 'O', 'W', 'E', 'R'], ['O', 'K']] ++
      [['('] ++ v.pointed ++ ['V', ')']]) := by
    simp [List.intercalate_cons_cons]
  have power : ['P', 'O', 'W', 'E', 'R'] <:+: [' '].intercalate
      ([['P', 'O', 'W', 'E', 'R'], ['O', 'K']] ++ [['('] ++ v.pointed ++ ['V', ')']]) := by
    refine List.IsPrefix.isInfix ?_
    rw [List.cons_append, List.cons_append, List.intercalate_cons_cons, List.append_assoc]
    exact List.prefix_append _ _
  have value : substr (['('] ++ v.pointed ++ ['V', ')']) 2
      ((['('] ++ v.pointed ++ ['V', ')']).length - 3) = v.pointed := by
    simp [substr]
  unfold mainRule
  dsimp only
  rw [text, if_neg tc, if_pos power]
  simp only [field, parts]
  simp only [List.cons_append, List.nil_append, List.getD_cons_succ, List.getD_cons_zero,
    Nat.add_one_sub_one, if_true] at value ⊢
  rw [value]
  simp [printTs, printTi, records, Item.values, Value.type, Value.text, AsduType.code]
  exact ⟨rfl, rfl⟩

theorem rule_fault (s : Awk) : mainRule comaddr timestamp s Item.fault.line =
    ⟨['0'], s.count + 1, s.out ++ records comaddr timestamp .fault⟩ := by
  have text : Item.fault.line.map (fun c => if c = ',' then '.' else c) = Item.fault.line := by
    decide
  have tc : ¬ ['T', 'C'] <+: Item.fault.line := by decide
  have power : ['P', 'O', 'W', 'E', 'R'] <:+: Item.fault.line := by decide
  have second : field 2 Item.fault.line = ['F', 'A', 'U', 'L', 'T'] := by decide
  unfold mainRule
  dsimp only
  rw [text, if_neg tc, if_pos power, second]
  simp [printTs, printTi, records, Item.values, Value.type, Value.text, AsduType.code]
  exact ⟨rfl, rfl⟩

private theorem not_power {line : List Char} (free : 'W' ∉ line) :
    ¬ ['P', 'O', 'W', 'E', 'R'] <:+: line :=
  fun inside => free (inside.subset (by decide))

private theorem cut_unit (v : Numeral) (name : List Char) (unit : Char)
    (word : name ≠ [] ∧ ∀ c ∈ name, blank c = false ∧ c ≠ ',')
    (letter : blank unit = false ∧ unit ≠ ',') :
    (name ++ ' ' :: (v.text ++ [unit])).map (fun c => if c = ',' then '.' else c) =
        name ++ ' ' :: (v.pointed ++ [unit]) ∧
      substr (field 2 (name ++ ' ' :: (v.pointed ++ [unit]))) 1
        ((field 2 (name ++ ' ' :: (v.pointed ++ [unit]))).length - 1) = v.pointed := by
  have kept : name.map (fun c => if c = ',' then '.' else c) = name :=
    (List.map_congr_left fun c member => if_neg (word.2 c member).2).trans (List.map_id _)
  have parts : words blank ([' '].intercalate ([name] ++ [[] ++ v.pointed ++ [unit]])) =
      [name] ++ [[] ++ v.pointed ++ [unit]] :=
    words_pointed v (by simpa using ⟨word.1, fun c member => (word.2 c member).1⟩) nofun
      (by simpa using letter.1)
  have shape : [' '].intercalate ([name] ++ [[] ++ v.pointed ++ [unit]]) =
      name ++ ' ' :: (v.pointed ++ [unit]) := by
    simp [List.intercalate_cons_cons]
  rw [shape] at parts
  constructor
  · simp [kept, Numeral.pointed, letter.2]
  · simp [field, parts, substr]

theorem rule_temperature (s : Awk) (v : Numeral) :
    mainRule comaddr timestamp s (Item.temperature v).line =
      ⟨v.pointed, s.count, s.out ++ records comaddr timestamp (.temperature v)⟩ := by
  have name : ['T', 'E', 'M', 'P', 'E', 'R', 'A', 'T', ' '] =
      ['T', 'E', 'M', 'P', 'E', 'R', 'A', 'T'] ++ [' '] := rfl
  obtain ⟨text, value⟩ := cut_unit v ['T', 'E', 'M', 'P', 'E', 'R', 'A', 'T'] 'C'
    ⟨by decide, List.all_iff_forall_prop.mp (by decide)⟩ (by decide)
  unfold mainRule Item.line
  dsimp only
  rw [name, List.append_assoc, List.singleton_append, text, if_neg, if_neg, if_pos, value]
  · simp [printTi, records, Item.values, Value.type, Value.text, AsduType.code]
    rfl
  · exact (List.prefix_append _ _).isInfix
  · apply not_power
    simp [pointed_free (v := v) (c := 'W') rfl (by decide)]
  · simp

theorem rule_battery (s : Awk) (v : Numeral) :
    mainRule comaddr timestamp s (Item.battery v).line =
      ⟨v.pointed, s.count + 1, s.out ++ records comaddr timestamp (.battery v)⟩ := by
  have name : ['B', 'A', 'T', 'T', 'E', 'R', 'Y', ' '] =
      ['B', 'A', 'T', 'T', 'E', 'R', 'Y'] ++ [' '] := rfl
  obtain ⟨text, value⟩ := cut_unit v ['B', 'A', 'T', 'T', 'E', 'R', 'Y'] '%'
    ⟨by decide, List.all_iff_forall_prop.mp (by decide)⟩ (by decide)
  unfold mainRule Item.line
  dsimp only
  rw [name, List.append_assoc, List.singleton_append, text, if_neg, if_neg, if_neg, if_pos, value]
  · by_cases full : v.pointed = ['1', '0', '0']
    · simp [printTs, printTi, records, Item.values, Value.type, Value.text, AsduType.code, full]
      exact ⟨rfl, rfl⟩
    · simp [printTs, printTi, records, Item.values, Value.type, Value.text, AsduType.code, full]
      exact ⟨rfl, rfl⟩
  · exact (List.prefix_append _ _).isInfix
  · intro inside
    have letter : 'M' ∈ ['T', 'E', 'M', 'P', 'E', 'R', 'A', 'T'] := by decide
    have absent := inside.subset letter
    simp [pointed_free (v := v) (c := 'M') rfl (by decide)] at absent
  · apply not_power
    simp [pointed_free (v := v) (c := 'W') rfl (by decide)]
  · simp

theorem rule_line (s : Awk) {i : Item} (addressed : i.Addressed) :
    ∃ tiValue, mainRule comaddr timestamp s i.line =
      ⟨tiValue, s.count + i.singles, s.out ++ records comaddr timestamp i⟩ := by
  cases i with
  | input n on => exact ⟨_, rule_input comaddr timestamp s addressed.1 on⟩
  | power v => exact ⟨_, rule_power comaddr timestamp s v⟩
  | fault => exact ⟨_, rule_fault comaddr timestamp s⟩
  | temperature v => exact ⟨_, rule_temperature comaddr timestamp s v⟩
  | battery v => exact ⟨_, rule_battery comaddr timestamp s v⟩

theorem rules_report {report : List (Item × Bool)} (addressed : ∀ i ∈ report, i.1.Addressed)
    (s : Awk) :
    ∃ tiValue, ((report.map sent).map stripCr).foldl (mainRule comaddr timestamp) s =
      ⟨tiValue, s.count + (report.map fun i => i.1.singles).sum,
        s.out ++ report.flatMap fun i => records comaddr timestamp i.1⟩ := by
  induction report generalizing s with
  | nil => exact ⟨s.tiValue, by simp⟩
  | cons i report ih =>
    obtain ⟨now, later⟩ := List.forall_mem_cons.mp addressed
    obtain ⟨first, line⟩ := rule_line comaddr timestamp s now
    obtain ⟨last, rest⟩ := ih later
      ⟨first, s.count + i.1.singles, s.out ++ records comaddr timestamp i.1⟩
    refine ⟨last, ?_⟩
    rw [List.map_cons, List.map_cons, List.foldl_cons, stripCr_sent, line, rest, List.map_cons,
      List.sum_cons, List.flatMap_cons, List.append_assoc, Nat.add_assoc]

end Parser

section Conversion

variable {render : List Char → List Char}

theorem asduconv_lines {lines : List (List Char)} {es : List (Entry Nat Body)}
    (taken : lines.map (record render) = es.map some) (nonempty : es ≠ []) {cot : Nat}
    (cause : cot < 2 ^ 16) (range : ∀ e ∈ es, InRange e)
    (timed : ∀ e ∈ es, e.type = .spTb ∨ e.type = .meTf) :
    ∃ telegrams : List Telegram,
      (asduconv .one render cot lines).map (readLine .one) = telegrams.map some ∧
      (∀ t ∈ telegrams, t.cause = cot) ∧
      (telegrams.flatMap Telegram.objects).Perm (es.map (object .one)) := by
  have sorted : ((lines.mergeSort lineOrder).map (record render)).Perm (es.map some) := by
    rw [← taken]
    exact (List.mergeSort_perm _ _).map _
  have image := congrFun (congrFun (List.eq_map_comp_perm (some : Entry Nat Body → _))
    ((lines.mergeSort lineOrder).map (record render))) es
  obtain ⟨fs, same, perm⟩ := image.mpr sorted
  have inside : ∀ e ∈ fs, e ∈ es := fun e member => perm.subset member
  have filled : fs ≠ [] := by
    rintro rfl
    exact nonempty (List.nil_perm.mp perm)
  have short : ShortRuns .one fs := by
    intro e member narrow
    rcases timed e (inside e member) with single | measured
    · rw [single] at narrow
      cases narrow
    · rw [measured] at narrow
      cases narrow
  obtain ⟨telegrams, read, causes, objects⟩ :=
    readLine_printed filled cause (fun e member => range e (inside e member)) short
  refine ⟨telegrams, ?_, causes, ?_⟩
  · rw [asduconv, same]
    exact read
  · rw [objects]
    exact perm.map _

def entry (render : List Char → List Char) (ca : Nat) (timestamp : List Char)
    (p : Nat × Value) : Entry Nat Body :=
  ⟨ca, p.1, p.2.type, ⟨p.2.text, render p.2.text, ['-'], timestamp⟩⟩

/-- A value without blanks. -/
def Value.Visible (v : Value) : Prop := v.text ≠ [] ∧ ∀ c ∈ v.text, blank c = false

theorem values_visible (i : Item) : ∀ p ∈ i.values, p.2.Visible := by
  have numeral (v : Numeral) : (Value.measured v.pointed).Visible :=
    ⟨pointed_nonempty v, fun c => pointed_visible⟩
  have single (on : Bool) : (Value.single on).Visible := by
    cases on <;> exact ⟨by decide, List.all_iff_forall_prop.mp (by decide)⟩
  cases i with
  | input n on => simpa [Item.values] using single on
  | power v => simpa [Item.values] using ⟨numeral v, single false⟩
  | fault =>
    have zero : (Value.measured ['0']).Visible :=
      ⟨by decide, List.all_iff_forall_prop.mp (by decide)⟩
    simpa [Item.values] using ⟨zero, single true⟩
  | temperature v => simpa [Item.values] using numeral v
  | battery v => simpa [Item.values] using ⟨numeral v, single _⟩

theorem record_printf {ca : Nat} {timestamp : List Char}
    (stamp : timestamp ≠ [] ∧ ∀ c ∈ timestamp, blank c = false) {p : Nat × Value}
    (visible : p.2.Visible) :
    record render (printfRecord (Nat.toDigits 10 ca) timestamp (Nat.toDigits 10 p.1)
      (Nat.toDigits 10 p.2.type.code) p.2.text) = some (entry render ca timestamp p) := by
  have number (n : Nat) : Nat.toDigits 10 n ≠ [] ∧ ∀ c ∈ Nat.toDigits 10 n, blank c = false :=
    ⟨(plain_toDigits n).some, (plain_toDigits n).visible⟩
  have parts : words blank (printfRecord (Nat.toDigits 10 ca) timestamp (Nat.toDigits 10 p.1)
      (Nat.toDigits 10 p.2.type.code) p.2.text) = [Nat.toDigits 10 ca, Nat.toDigits 10 p.1,
        Nat.toDigits 10 p.2.type.code, p.2.text, ['-'], timestamp] := by
    apply words_intercalate rfl
    simp only [List.forall_mem_cons]
    exact ⟨number ca, number p.1, number _, visible, by simp [blank], stamp, nofun⟩
  simp only [record, field, parts]
  simp [entry, decimal_toDigits, inAsdu_toDigits, typeOf_code]

theorem object_entry (render : List Char → List Char) (ca : Nat) (timestamp : List Char)
    (p : Nat × Value) :
    object .one (entry render ca timestamp p) =
      ⟨ca, p.2.type, p.1, p.2.element render (int2hex (cp56Time2a timestamp 1 0) 7)⟩ := by
  obtain ⟨oa, value⟩ := p
  cases value with
  | single on =>
    have octet : int2hex (decimal [if on then '1' else '0'] + qds ['-']) 1 =
        digits 2 (if on then 1 else 0) := by
      cases on <;> decide
    simp only [object, entry, iehex, Value.type, Value.text, Value.element, octet]
  | measured text =>
    have octet : int2hex (qds ['-']) 1 = digits 2 0 := by decide
    simp only [object, entry, iehex, Value.type, Value.text, Value.element, octet]

theorem values_timed (v : Value) : v.type = .spTb ∨ v.type = .meTf := by
  cases v with
  | single on => exact .inl rfl
  | measured text => exact .inr rfl

theorem values_addressed {i : Item} (addressed : i.Addressed) :
    ∀ p ∈ i.values, p.1 < 2 ^ 24 := by
  cases i with
  | input n on => simpa [Item.values] using addressed.2
  | power v => simp [Item.values]
  | fault => simp [Item.values]
  | temperature v => simp [Item.values]
  | battery v => simp [Item.values]

theorem timestamp_visible (s : Scts) {k : Nat} (weekday : 1 ≤ k ∧ k ≤ 7) :
    (s.timeText [digit k]).text ≠ [] ∧
      ∀ c ∈ (s.timeText [digit k]).text, blank c = false := by
  have range := timeText_range s weekday
  have visible {part : List Char} (among : part ∈ (s.timeText [digit k]).parts) {c : Char}
      (member : c ∈ part) : blank c = false := by
    have isDigit := range.numerals part among c member
    by_contra isBlank
    simp only [blank, Bool.not_eq_false, Bool.or_eq_true, decide_eq_true_eq] at isBlank
    rcases isBlank with (rfl | rfl) | rfl <;> cases isDigit
  constructor
  · simp [TimeText.text]
  · intro c member
    simp only [TimeText.text, List.mem_append, List.mem_cons] at member
    have colon : blank ':' = false := rfl
    rcases member with own | rfl | own | rfl | own | rfl | own | rfl | own | rfl | own | rfl | own
    all_goals first
      | exact colon
      | exact visible (by simp [TimeText.parts]) own

theorem singles_iff (report : List (Item × Bool)) :
    (report.map fun i => i.1.singles).sum ≠ 0 ↔
      ∃ i ∈ report, ∃ p ∈ i.1.values, p.2.type = .spTb := by
  rw [Ne, List.sum_eq_zero_iff_forall_eq_nat]
  simp [Item.singles, List.countP_eq_zero]

/-- Whatever a controller reports, in any order and however often, in lines with or without
carriage returns: what the parser prints arrives, each value once, under the address of the station,
valid, with the time of the message; the parser succeeds if and only if a single point is among the
values. -/
theorem report_arrives (s : Scts) {k : Nat} (weekday : 1 ≤ k ∧ k ≤ 7)
    (date : List Char → List Char → List Char → List Char)
    (found : date (two s.year) (short s.month) (short s.day) = [digit k]) {ca : Nat}
    (small : ca < 2 ^ 16) {report : List (Item × Bool)} (nonempty : report ≠ [])
    (addressed : ∀ i ∈ report, i.1.Addressed) :
    ∃ (timestamp time : List Char) (telegrams : List Telegram),
      getSmststamp date (Pdu.hex s.octets) = some timestamp ∧
      readCp56time2a time = s.time k ∧
      ((ccu825Sms (Nat.toDigits 10 ca) timestamp (report.map sent)).2 = 0 ↔
        ∃ i ∈ report, ∃ p ∈ i.1.values, p.2.type = .spTb) ∧
      (asduconv .one render 3
        (ccu825Sms (Nat.toDigits 10 ca) timestamp (report.map sent)).1).map (readLine .one) =
          telegrams.map some ∧
      (∀ t ∈ telegrams, t.cause = 3) ∧
      (telegrams.flatMap Telegram.objects).Perm
        (report.flatMap fun i => i.1.values.map fun p =>
          ⟨ca, p.2.type, p.1, p.2.element render time⟩) := by
  obtain ⟨tiValue, parsed⟩ := rules_report (Nat.toDigits 10 ca) (s.timeText [digit k]).text
    addressed ⟨[], 0, []⟩
  have stamp := timestamp_visible s weekday
  have taken : (report.flatMap fun i =>
      records (Nat.toDigits 10 ca) (s.timeText [digit k]).text i.1).map (record render) =
        (report.flatMap fun i => i.1.values.map
          (entry render ca (s.timeText [digit k]).text)).map some := by
    rw [List.map_flatMap, List.map_flatMap]
    apply List.flatMap_congr
    intro i _
    rw [records, List.map_map, List.map_map]
    exact List.map_congr_left fun p member => record_printf stamp (values_visible i.1 p member)
  have member {e : Entry Nat Body} (inside : e ∈ report.flatMap fun i => i.1.values.map
      (entry render ca (s.timeText [digit k]).text)) : ∃ i ∈ report, ∃ p ∈ i.1.values,
        entry render ca (s.timeText [digit k]).text p = e := by
    obtain ⟨i, among, own⟩ := List.mem_flatMap.mp inside
    obtain ⟨p, value, rfl⟩ := List.mem_map.mp own
    exact ⟨i, among, p, value, rfl⟩
  have filled : (report.flatMap fun i => i.1.values.map
      (entry render ca (s.timeText [digit k]).text)) ≠ [] := by
    obtain ⟨i, report, rfl⟩ := List.exists_cons_of_ne_nil nonempty
    obtain ⟨item, cr⟩ := i
    cases item <;> simp [Item.values]
  have range : ∀ e ∈ report.flatMap fun i => i.1.values.map
      (entry render ca (s.timeText [digit k]).text), InRange e := by
    intro e inside
    obtain ⟨i, among, p, value, rfl⟩ := member inside
    exact ⟨small, values_addressed (addressed i among) p value⟩
  have timed : ∀ e ∈ report.flatMap fun i => i.1.values.map
      (entry render ca (s.timeText [digit k]).text), e.type = .spTb ∨ e.type = .meTf := by
    intro e inside
    obtain ⟨i, _, p, _, rfl⟩ := member inside
    exact values_timed p.2
  obtain ⟨telegrams, read, causes, objects⟩ :=
    asduconv_lines taken filled (by decide : 3 < 2 ^ 16) range timed
  refine ⟨(s.timeText [digit k]).text, int2hex (cp56Time2a (s.timeText [digit k]).text 1 0) 7,
    telegrams, ?_, read_timeText s weekday, ?_, ?_, causes, ?_⟩
  · rw [getSmststamp_eq, found]
  · rw [ccu825Sms, parsed]
    dsimp only
    rw [Nat.zero_add, ite_eq_right_iff, ← singles_iff]
    simp
  · rw [ccu825Sms, parsed]
    exact read
  · rw [List.map_flatMap] at objects
    refine objects.trans (List.Perm.of_eq ?_)
    apply List.flatMap_congr
    intro i _
    rw [List.map_map]
    exact List.map_congr_left fun p _ => object_entry render ca _ p

private theorem mains_chars :
    ∀ c ∈ ['2', '2', '9', ',', '5'], c.isDigit = true ∨ c ∈ ['-', '+', '.', ','] :=
  List.all_iff_forall_prop.mp (by decide)

/-- An input, and a voltage with a comma in a line with a carriage return. -/
def twoItems : List (Item × Bool) :=
  [(.input 3 true, false),
    (.power ⟨['2', '2', '9', ',', '5'], List.cons_ne_nil _ _, mains_chars⟩, true)]

theorem report_arrives_twoItems :
    ∃ (timestamp time : List Char) (telegrams : List Telegram),
      getSmststamp (fun _ _ _ => ['4']) (Pdu.hex lastSecond.octets) = some timestamp ∧
      readCp56time2a time = lastSecond.time 4 ∧
      ((ccu825Sms (Nat.toDigits 10 300) timestamp (twoItems.map sent)).2 = 0 ↔
        ∃ i ∈ twoItems, ∃ p ∈ i.1.values, p.2.type = .spTb) ∧
      (asduconv .one id 3
        (ccu825Sms (Nat.toDigits 10 300) timestamp (twoItems.map sent)).1).map (readLine .one) =
          telegrams.map some ∧
      (∀ t ∈ telegrams, t.cause = 3) ∧
      (telegrams.flatMap Telegram.objects).Perm
        (twoItems.flatMap fun i => i.1.values.map fun p =>
          ⟨300, p.2.type, p.1, p.2.element id time⟩) := by
  refine report_arrives lastSecond (by decide) (fun _ _ _ => ['4']) rfl (by decide) (by decide) ?_
  simp [twoItems, Item.Addressed]

end Conversion

end IecUtils.Sms.Report
