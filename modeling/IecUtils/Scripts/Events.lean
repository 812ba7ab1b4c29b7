/- Module: IecUtils/Scripts/Events
   source: scripts/parsers/ccu825_gprs (event), rangeconv of scripts/utils/service_utils, json_parse
   of scripts/utils/http_ccuserver_utils
   digest: The events of a device become lines, and their numbers the list that is acknowledged. -/

import IecUtils.Foundation.Builtins
import IecUtils.Foundation.Lines
import IecUtils.Foundation.Scan
import IecUtils.Sms.Shell

set_option autoImplicit false
set_option relaxedAutoImplicit false

namespace IecUtils.Scripts.Events

open IecUtils.Foundation.Builtins
open IecUtils.Foundation.Lines
open IecUtils.Foundation.Scan (decimal notMem_toDigits)
open IecUtils.Foundation.Words

section Parser

/-- An element of `Events`, each member as `jq` prints it: as JSON, where a minus stands in front
of a digit. -/
structure Event where
  id : List Char
  type : List Char
  number : List Char
  printable : id ≠ ['-', 'n']
  deriving DecidableEq

theorem null_printable : "null".toList ≠ ['-', 'n'] := by decide

/-- What `jq` prints of an element past the end. -/
def Event.null : Event := ⟨"null".toList, "null".toList, "null".toList, null_printable⟩

/-- What `jq` prints for a text on its input: the length of `Events`, and the members of an
element. -/
structure Jq where
  length : List Char → List Char
  member : List Char → Nat → Event

/-- These are the events that `jq` finds in a text. -/
structure Jq.Finds (jq : Jq) (text : List Char) (events : List Event) : Prop where
  length : jq.length text = Nat.toDigits 10 events.length
  member : ∀ i, jq.member text i = events.getD i Event.null

/-- `seq -s " "`, of natural numbers. -/
def seq (args : List (List Char)) : List Char :=
  let numbers := args.map fun arg => Nat.ofDigitChars 10 arg 0
  let range := match numbers with
    | [last] => List.range' 1 last
    | [first, last] => List.range' first (last + 1 - first)
    | [first, increment, last] =>
        if increment = 0 then []
        else List.range' first ((last + increment - first) / increment) increment
    | _ => []
  [' '].intercalate (range.map (Nat.toDigits 10))

def rangeconv (arg : List Char) : List Char :=
  if '-' ∈ arg then seq (words isBlank (arg.map fun c => if c = '-' then ' ' else c)) else arg

/-- A time stamp has digits and colons. -/
structure Timestamp where
  text : List Char
  plain : text.all fun c => c.isDigit || c = ':'

theorem Timestamp.digit_or_colon (ts : Timestamp) :
    ∀ c ∈ ts.text, c.isDigit = true ∨ c = ':' := by
  intro c member
  simpa using List.all_eq_true.mp ts.plain c member

/-- The variables that the `case` over the type of an event sets. -/
structure Report where
  type : List Char
  value : List Char
  objaddr : List Char
  deriving DecidableEq

def Event.report (e : Event) : Report :=
  if e.type = "\"InputActive\"".toList then ⟨e.type, ['1'], e.number⟩
  else if e.type = "\"InputPassive\"".toList then ⟨e.type, ['0'], e.number⟩
  else if e.type = "\"PowerRecovery\"".toList then ⟨e.type, ['0'], ['1', '7']⟩
  else if e.type = "\"PowerFault\"".toList then ⟨e.type, ['1'], ['1', '7']⟩
  else if e.type = "\"BatteryLow1\"".toList ∨ e.type = "\"BatteryLow2\"".toList then
    ⟨e.type, ['1'], ['1', '8']⟩
  else ⟨"\"Event\"".toList, ['0'], ['0']⟩

/-- What `printf` prints of an event, without the line feed. -/
def Event.line (asduaddr : Nat) (ts : Timestamp) (e : Event) : List Char :=
  [' '].intercalate [e.id, e.report.type, Nat.toDigits 10 asduaddr, e.report.objaddr, ['3', '0'],
    e.report.value, ['-'], ts.text]

/-- What `jq` gets, for every line that `read string` makes of the JSON text. -/
def passed (json : List Char) : List (List Char) :=
  (readLines (echo [json])).map fun string => echo [string]

example : passed "[\"a\\\"b\"]".toList = ["[\"a\"b\"]\n".toList] := by decide

/-- `$(($event_len-1))`: anything but a number is an error. -/
def lastIndex (eventLen : List Char) : Option Int :=
  if eventLen.all Char.isDigit then some ((Nat.ofDigitChars 10 eventLen 0 : Int) - 1) else none

/-- The words that the loop runs over. An error ends the substitution only, with nothing in it. -/
def range (eventLen : List Char) : List (List Char) :=
  match lastIndex eventLen with
  | some last => words isBlank (rangeconv ('0' :: '-' :: decimal last))
  | none => []

def turns (jq : Jq) (json : List Char) : List Event :=
  (passed json).flatMap fun string =>
    (range (jq.length string)).map fun i => jq.member string (Nat.ofDigitChars 10 i 0)

def ccu825Gprs (jq : Jq) (asduaddr : Nat) (json : List Char) (ts : Nat → Timestamp) : List Char :=
  join '\n' ((turns jq json).mapIdx fun k e => e.line asduaddr (ts k))

end Parser

section Acknowledgement

/-- The first of the words of a line, without the backslashes. -/
def readWord : List Char → List Char
  | [] => []
  | ['\\'] => []
  | '\\' :: c :: cs => c :: readWord cs
  | c :: cs => if isBlank c then [] else c :: readWord cs

/-- What `read id type value` finds in `id`, line by line. -/
def readIds (text : List Char) : List (List Char) :=
  (logicalLines [] text).map fun line => readWord (line.dropWhile isBlank)

/-- `valuelist` is what the parser prints, without line feeds at its end. -/
def idsOf (printed : List Char) : List (List Char) :=
  readIds ((printed.rdropWhile fun c => c = '\n') ++ ['\n'])

def listid (ids : List (List Char)) : List Char :=
  ids.foldl (fun listid id => if listid = [] then id else listid ++ "%2C".toList ++ id) []

/-- What `json_parse` prints in the end. -/
def acknowledged (printed : List Char) : List Char := echo [listid (idsOf printed)]

end Acknowledgement

section Range

private theorem toDigits_word (n : Nat) :
    Nat.toDigits 10 n ≠ [] ∧ ∀ c ∈ Nat.toDigits 10 n, isBlank c = false := by
  refine ⟨Nat.toDigits_ne_nil, ?_⟩
  intro c member
  by_contra blank
  rw [Bool.not_eq_false, isBlank] at blank
  simp only [Bool.or_eq_true, decide_eq_true_eq] at blank
  rcases blank with (rfl | rfl) | rfl <;> exact notMem_toDigits rfl n member

theorem rangeconv_pos (m : Nat) :
    words isBlank (rangeconv ('0' :: '-' :: decimal (m : Int))) =
      (List.range (m + 1)).map (Nat.toDigits 10) := by
  have text : decimal (m : Int) = Nat.toDigits 10 m := by
    rw [decimal, if_neg (by omega), Int.natAbs_natCast]
  have spaced : ('0' :: '-' :: Nat.toDigits 10 m).map (fun c => if c = '-' then ' ' else c) =
      [' '].intercalate [['0'], Nat.toDigits 10 m] := by
    have same : (Nat.toDigits 10 m).map (fun c => if c = '-' then ' ' else c) =
        Nat.toDigits 10 m := by
      refine (List.map_congr_left ?_).trans (List.map_id _)
      intro c member
      refine if_neg ?_
      rintro rfl
      exact notMem_toDigits rfl m member
    rw [List.map_cons, List.map_cons, same, if_neg (by decide), if_pos rfl,
      List.intercalate_cons_cons, List.intercalate_singleton]
    rfl
  have zero : ['0'] = Nat.toDigits 10 0 := rfl
  rw [text, rangeconv, if_pos (by simp), spaced, words_intercalate rfl, seq]
  · have numbers : ([['0'], Nat.toDigits 10 m].map fun arg => Nat.ofDigitChars 10 arg 0) =
        [0, m] := by
      rw [zero, List.map_cons, List.map_singleton, Nat.ofDigitChars_ten_toDigits,
        Nat.ofDigitChars_ten_toDigits]
    rw [numbers]
    dsimp only
    rw [words_intercalate rfl, Nat.sub_zero, List.range_eq_range']
    intro w member
    obtain ⟨k, _, rfl⟩ := List.mem_map.mp member
    exact toDigits_word k
  · rw [zero]
    simp only [List.forall_mem_cons]
    exact ⟨toDigits_word 0, toDigits_word m, nofun⟩

private theorem all_digits (n : Nat) : (Nat.toDigits 10 n).all Char.isDigit = true :=
  List.all_eq_true.mpr fun _ member => Nat.isDigit_of_mem_toDigits (by omega) (by omega) member

theorem range_length (n : Nat) : range (Nat.toDigits 10 n) =
    if n = 0 then [['0'], ['1']] else (List.range n).map (Nat.toDigits 10) := by
  rw [range, lastIndex, if_pos (all_digits n), Nat.ofDigitChars_ten_toDigits]
  dsimp only
  split
  · rename_i none
    subst none
    rfl
  · rename_i positive
    have size : ((n : Int) - 1) = ((n - 1 : Nat) : Int) := by omega
    rw [size, rangeconv_pos, Nat.sub_add_cancel (Nat.pos_of_ne_zero positive)]

theorem turns_eq {jq : Jq} {json text : List Char} {events : List Event}
    (alone : passed json = [text]) (finds : jq.Finds text events) :
    turns jq json = if events = [] then [Event.null, Event.null] else events := by
  rw [turns, alone, List.flatMap_singleton, finds.length, range_length]
  simp only [finds.member, List.length_eq_zero_iff]
  split
  · rename_i none
    subst none
    rfl
  · rw [List.map_map]
    apply List.ext_getElem
    · simp
    · intro k short long
      simp [Nat.ofDigitChars_ten_toDigits, long]

theorem passed_intact {json : List Char} (intact : Intact json) (newline : json ≠ ['-', 'n']) :
    passed json = [json ++ ['\n']] := by
  have plain : '\\' ∉ json := fun inside => (intact.plain _ inside).1 rfl
  rw [passed, readLines_echo intact newline, List.map_singleton, echo_plain plain newline]

theorem intact_of_passed {json : List Char} (reaches : json ++ ['\n'] ∈ passed json) :
    Intact json ∧ json ≠ ['-', 'n'] := by
  obtain ⟨string, read, printed⟩ := List.mem_map.mp reaches
  refine intact_of_readLines read ?_
  have short := (length_echo_le string).1
  rw [printed, List.length_append, List.length_singleton] at short
  omega

end Range

section Words

def Lost (c : Char) : Prop := isBlank c = true ∨ c = '\\'

instance (c : Char) : Decidable (Lost c) := inferInstanceAs (Decidable (_ ∨ _))

private theorem readWord_cons {c : Char} (kept : ¬Lost c) (cs : List Char) :
    readWord (c :: cs) = c :: readWord cs := by
  obtain ⟨visible, other⟩ := not_or.mp kept
  rw [readWord]
  · exact if_neg visible
  · rintro rfl
    exact absurd rfl other
  · rintro d ds rfl
    exact absurd rfl other

private theorem readWord_blank {c : Char} (blank : isBlank c = true) (cs : List Char) :
    readWord (c :: cs) = [] := by
  rw [readWord]
  · exact if_pos blank
  · rintro rfl
    cases blank
  · rintro d ds rfl
    cases blank

theorem readWord_plain {w : List Char} (plain : ∀ c ∈ w, ¬Lost c) (cs : List Char) :
    readWord (w ++ ' ' :: cs) = w := by
  induction w with
  | nil => exact readWord_blank rfl cs
  | cons c w ih =>
    obtain ⟨now, later⟩ := List.forall_mem_cons.mp plain
    rw [List.cons_append, readWord_cons now, ih later]

/-- What has been lost is not made up for by what follows: behind lost characters `p` a text is
longer than what is read of it. -/
private theorem readWord_ne {q : Char} (kept : ¬Lost q) (cs : List Char) (w : List Char)
    {p : List Char} (filled : p ≠ []) (lost : ∀ c ∈ p, Lost c) :
    readWord (w ++ ' ' :: q :: cs) ≠ p ++ w := by
  induction size : w.length using Nat.strong_induction_on generalizing w p with
  | _ n ih =>
    intro same
    obtain ⟨e, p, rfl⟩ := List.exists_cons_of_ne_nil filled
    obtain ⟨now, later⟩ := List.forall_mem_cons.mp lost
    cases w with
    | nil =>
      rw [List.nil_append, readWord_blank rfl] at same
      cases same
    | cons c w =>
      by_cases isLost : Lost c
      · rcases isLost with blank | rfl
        · rw [List.cons_append, readWord_blank blank] at same
          cases same
        · cases w with
          | nil =>
            have rest : readWord (q :: cs) = p ++ ['\\'] := (List.cons.inj same).2
            rw [readWord_cons kept] at rest
            have back : ∀ c ∈ p ++ ['\\'], Lost c :=
              List.forall_mem_append.mpr ⟨later, List.forall_mem_singleton.mpr (.inr rfl)⟩
            exact kept (back q (rest ▸ List.mem_cons_self))
          | cons d w =>
            obtain ⟨head, rest⟩ := List.cons.inj same
            have more : ∀ c ∈ p ++ ['\\', d], Lost c := by
              refine List.forall_mem_append.mpr ⟨later, ?_⟩
              exact List.forall_mem_cons.mpr ⟨.inr rfl, List.forall_mem_singleton.mpr (head ▸ now)⟩
            rw [List.length_cons, List.length_cons] at size
            exact ih w.length (by omega) w (by simp) more rfl (rest.trans (by simp))
      · rw [List.cons_append, readWord_cons isLost] at same
        exact isLost ((List.cons.inj same).1 ▸ now)

private theorem plain_of_readWord {q : Char} (kept : ¬Lost q) (cs : List Char) (w : List Char)
    (same : readWord (w ++ ' ' :: q :: cs) = w) : ∀ c ∈ w, ¬Lost c := by
  induction w with
  | nil => exact nofun
  | cons c w ih =>
    by_cases isLost : Lost c
    · rcases isLost with blank | rfl
      · rw [List.cons_append, readWord_blank blank] at same
        cases same
      · cases w with
        | nil =>
          obtain ⟨head, _⟩ := List.cons.inj same
          cases head
        | cons d w =>
          obtain ⟨head, rest⟩ := List.cons.inj same
          subst head
          have one : ∀ c ∈ ['\\'], Lost c := List.forall_mem_singleton.mpr (.inr rfl)
          exact (readWord_ne kept cs w (List.cons_ne_nil _ _) one rest).elim
    · rw [List.cons_append, readWord_cons isLost] at same
      exact List.forall_mem_cons.mpr ⟨isLost, ih (List.cons.inj same).2⟩

/-- A line gives back the word that it begins with if and only if there is one and nothing of it
gets lost. -/
theorem readWord_line_iff {q : Char} (kept : ¬Lost q) (w cs : List Char) :
    readWord ((w ++ ' ' :: q :: cs).dropWhile isBlank) = w ↔ w ≠ [] ∧ ∀ c ∈ w, ¬Lost c := by
  have visible : isBlank q = false := (Bool.not_eq_true _).mp (not_or.mp kept).1
  have behind (v : List Char) (all : v.dropWhile isBlank = []) :
      (v ++ ' ' :: q :: cs).dropWhile isBlank = q :: cs := by
    rw [List.dropWhile_append, all, if_pos List.isEmpty_nil, List.dropWhile_cons_of_pos rfl,
      List.dropWhile_cons_of_neg (by rw [visible]; exact Bool.false_ne_true)]
  constructor
  · intro same
    cases w with
    | nil =>
      rw [behind [] rfl, readWord_cons kept] at same
      cases same
    | cons c w =>
      refine ⟨List.cons_ne_nil _ _, ?_⟩
      cases blank : isBlank c with
      | false =>
        rw [List.cons_append, List.dropWhile_cons_of_neg (by simp [blank])] at same
        exact plain_of_readWord kept cs (c :: w) same
      | true =>
        exfalso
        rw [List.cons_append, List.dropWhile_cons_of_pos blank] at same
        by_cases all : w.dropWhile isBlank = []
        · rw [behind w all, readWord_cons kept, List.cons.injEq] at same
          exact kept (same.1 ▸ .inl blank)
        · have front : ∀ d ∈ c :: w.takeWhile isBlank, Lost d := by
            refine List.forall_mem_cons.mpr ⟨.inl blank, ?_⟩
            intro d member
            exact .inl (List.mem_takeWhile_imp member)
          rw [List.dropWhile_append, if_neg (by simpa using all)] at same
          refine readWord_ne kept cs (w.dropWhile isBlank) (List.cons_ne_nil _ _) front ?_
          rw [same, List.cons_append, List.takeWhile_append_dropWhile]
  · rintro ⟨filled, plain⟩
    obtain ⟨c, w, rfl⟩ := List.exists_cons_of_ne_nil filled
    have first := (not_or.mp (plain c List.mem_cons_self)).1
    rw [List.cons_append, List.dropWhile_cons_of_neg first, ← List.cons_append]
    exact readWord_plain plain (q :: cs)

end Words

section Lines

variable (asduaddr : Nat) (ts : Timestamp) (e : Event)

/-- What follows the number of an event in its line. -/
private def Event.tail : List Char :=
  e.report.type ++ ' ' :: (Nat.toDigits 10 asduaddr ++ ' ' :: (e.report.objaddr ++
    ' ' :: '3' :: '0' :: ' ' :: (e.report.value ++ ' ' :: '-' :: ' ' :: ts.text)))

private theorem line_eq : e.line asduaddr ts = e.id ++ ' ' :: e.tail asduaddr ts := by
  simp [Event.line, Event.tail, List.intercalate_cons_cons]

private theorem report_type : e.report.type.head? = Option.some '"' ∧ '\n' ∉ e.report.type ∧
    '\n' ∉ e.report.value := by
  unfold Event.report
  split_ifs with type type type type type
  · simp only [type]
    decide
  · simp only [type]
    decide
  · simp only [type]
    decide
  · simp only [type]
    decide
  · rcases type with type | type
    · simp only [type]
      decide
    · simp only [type]
      decide
  · decide

private theorem mem_line : '\n' ∈ e.line asduaddr ts ↔ '\n' ∈ e.id ∨ '\n' ∈ e.report.objaddr := by
  obtain ⟨_, type, value⟩ := report_type e
  have address : '\n' ∉ Nat.toDigits 10 asduaddr := notMem_toDigits rfl asduaddr
  have time : '\n' ∉ ts.text := by
    intro member
    rcases ts.digit_or_colon _ member with digit | colon
    · cases digit
    · cases colon
  rw [line_eq, Event.tail]
  simp [type, value, address, time]

private theorem getLast_line :
    ∃ c, (e.line asduaddr ts).getLast? = Option.some c ∧ c ≠ '\\' ∧ c ≠ '\n' := by
  have parts : ∃ front, e.line asduaddr ts = front ++ ' ' :: ts.text := by
    refine ⟨e.id ++ ' ' :: (e.report.type ++ ' ' :: (Nat.toDigits 10 asduaddr ++
      ' ' :: (e.report.objaddr ++ ' ' :: '3' :: '0' :: ' ' :: (e.report.value ++ [' ', '-'])))), ?_⟩
    simp [line_eq, Event.tail]
  obtain ⟨front, parts⟩ := parts
  refine ⟨(' ' :: ts.text).getLast (List.cons_ne_nil _ _), ?_, ?_⟩
  · rw [parts, List.getLast?_append_of_ne_nil _ (List.cons_ne_nil _ _),
      List.getLast?_eq_some_getLast]
  · rcases List.mem_cons.mp (List.getLast_mem (List.cons_ne_nil ' ' ts.text)) with blank | inside
    · rw [blank]
      decide
    · rcases ts.digit_or_colon _ inside with digit | colon
      · constructor
        · intro wrong
          rw [wrong] at digit
          cases digit
        · intro wrong
          rw [wrong] at digit
          cases digit
      · rw [colon]
        decide

private theorem readWord_line_event :
    readWord ((e.line asduaddr ts).dropWhile isBlank) = e.id ↔
      e.id ≠ [] ∧ ∀ c ∈ e.id, ¬Lost c := by
  obtain ⟨quote, _, _⟩ := report_type e
  obtain ⟨cs, type⟩ : ∃ cs, e.report.type = '"' :: cs := List.head?_eq_some_iff.mp quote
  rw [line_eq, Event.tail, type, List.cons_append]
  exact readWord_line_iff (by decide) e.id _

end Lines

section Reading

private theorem logicalLines_line {l : List Char} (free : '\n' ∉ l) (last : l.getLast? ≠ some '\\')
    (line cs : List Char) :
    logicalLines line (l ++ '\n' :: cs) = (line ++ l) :: logicalLines [] cs := by
  induction line, l using logicalLines.induct with
  | case1 line => simp [logicalLines]
  | case2 line => exact absurd rfl last
  | case3 line l =>
    exact absurd (List.mem_cons_of_mem _ List.mem_cons_self) free
  | case4 line c l other ih =>
    rw [List.cons_append, List.cons_append, logicalLines, if_neg other, ih, List.append_assoc]
    · rfl
    · exact fun member => free (List.mem_cons_of_mem _ (List.mem_cons_of_mem _ member))
    · intro back
      exact last (by rw [List.getLast?_cons_cons, List.getLast?_cons, back]; rfl)
  | case5 line l => exact absurd List.mem_cons_self free
  | case6 line c l single pair other ih =>
    have plain : c ≠ '\\' := by
      rintro rfl
      cases l with
      | nil => exact single rfl rfl
      | cons d l => exact pair d l rfl rfl
    rw [List.cons_append, logicalLines, if_neg other, ih, List.append_assoc]
    · rfl
    · exact fun member => free (List.mem_cons_of_mem _ member)
    · intro back
      exact last (by rw [List.getLast?_cons, back]; rfl)
    · exact fun wrong => absurd wrong plain
    · exact fun _ _ wrong => absurd wrong plain

private theorem logicalLines_join {lines : List (List Char)}
    (plain : ∀ l ∈ lines, '\n' ∉ l ∧ l.getLast? ≠ some '\\') :
    logicalLines [] (join '\n' lines) = lines := by
  induction lines with
  | nil => rfl
  | cons l lines ih =>
    obtain ⟨⟨free, last⟩, later⟩ := List.forall_mem_cons.mp plain
    have parts : join '\n' (l :: lines) = l ++ '\n' :: join '\n' lines := by simp [join]
    rw [parts, logicalLines_line free last, ih later, List.nil_append]

private theorem rdropWhile_join (lines : List (List Char)) {l : List Char}
    (last : ∃ c, l.getLast? = some c ∧ c ≠ '\n') :
    ((join '\n' (lines ++ [l])).rdropWhile fun c => c = '\n') ++ ['\n'] =
      join '\n' (lines ++ [l]) := by
  obtain ⟨c, isLast, other⟩ := last
  obtain ⟨front, rfl⟩ := List.getLast?_eq_some_iff.mp isLast
  have parts : join '\n' (lines ++ [front ++ [c]]) =
      (join '\n' lines ++ front ++ [c]) ++ ['\n'] := by
    simp [join]
  rw [parts, List.rdropWhile_concat_pos _ _ _ (by simp),
    List.rdropWhile_concat_neg _ _ _ (by simpa using other)]

private theorem idsOf_join {lines : List (List Char)} (filled : lines ≠ [])
    (plain : ∀ l ∈ lines, '\n' ∉ l ∧ ∃ c, l.getLast? = some c ∧ c ≠ '\\' ∧ c ≠ '\n') :
    idsOf (join '\n' lines) = lines.map fun l => readWord (l.dropWhile isBlank) := by
  have ends : ∀ l ∈ lines, '\n' ∉ l ∧ l.getLast? ≠ some '\\' := by
    intro l member
    obtain ⟨free, c, isLast, other, _⟩ := plain l member
    refine ⟨free, ?_⟩
    rw [isLast]
    exact fun same => other (Option.some.inj same)
  obtain ⟨front, l, parts⟩ := List.eq_nil_or_concat lines |>.resolve_left filled
  rw [List.concat_eq_append] at parts
  obtain ⟨_, c, isLast, _, other⟩ := plain l (by simp [parts])
  have text := rdropWhile_join front ⟨c, isLast, other⟩
  rw [← parts] at text
  rw [idsOf, text, readIds, logicalLines_join ends]

private theorem foldl_listid {acc : List Char} (filled : acc ≠ []) (ids : List (List Char)) :
    ids.foldl (fun listid id => if listid = [] then id else listid ++ "%2C".toList ++ id) acc =
      "%2C".toList.intercalate (acc :: ids) := by
  induction ids generalizing acc with
  | nil => rw [List.foldl_nil, List.intercalate_singleton]
  | cons id ids ih =>
    rw [List.foldl_cons, if_neg filled, ih (by simp), List.intercalate_cons_cons]
    cases ids with
    | nil => simp
    | cons id' ids => simp [List.intercalate_cons_cons]

theorem listid_eq {ids : List (List Char)} (filled : ∀ id ∈ ids, id ≠ []) :
    listid ids = "%2C".toList.intercalate ids := by
  cases ids with
  | nil => rfl
  | cons id ids =>
    rw [listid, List.foldl_cons, if_pos rfl, foldl_listid (filled id List.mem_cons_self)]

end Reading

section Report

/-- One line for each event, which begins with its number; these numbers are read, and make the
list. -/
structure Reported (printed : List Char) (events : List Event) : Prop where
  lines : List.Forall₂ (fun e line => e.id ++ [' '] <+: line) events (cut '\n' printed).1
  ids : idsOf printed = events.map Event.id
  list : acknowledged printed = "%2C".toList.intercalate (events.map Event.id) ++ ['\n']

/-- The number is one word, and what is printed of the input is in one line. -/
def Event.Clean (e : Event) : Prop :=
  e.id ≠ [] ∧ (∀ c ∈ e.id, ¬Lost c) ∧ '\n' ∉ e.report.objaddr

/-- A `jq` that finds no number elsewhere. -/
def Jq.only (text : List Char) (events : List Event) : Jq where
  length input := if input = text then Nat.toDigits 10 events.length else "1.5".toList
  member input i := if input = text then events.getD i Event.null else Event.null

theorem Jq.only_finds (text : List Char) (events : List Event) :
    (Jq.only text events).Finds text events := ⟨if_pos rfl, fun _ => if_pos rfl⟩

variable {asduaddr : Nat} {events : List Event} {ts : Nat → Timestamp}

private theorem ids_of_free (filled : events ≠ [])
    (free : ∀ l ∈ events.mapIdx fun k e => e.line asduaddr (ts k), '\n' ∉ l) :
    idsOf (join '\n' (events.mapIdx fun k e => e.line asduaddr (ts k))) =
      events.mapIdx fun k e => readWord ((e.line asduaddr (ts k)).dropWhile isBlank) := by
  have some : (events.mapIdx fun k e => e.line asduaddr (ts k)) ≠ [] := by simpa using filled
  have plain : ∀ l ∈ events.mapIdx fun k e => e.line asduaddr (ts k),
      '\n' ∉ l ∧ ∃ c, l.getLast? = Option.some c ∧ c ≠ '\\' ∧ c ≠ '\n' := by
    intro l member
    refine ⟨free l member, ?_⟩
    obtain ⟨k, short, rfl⟩ := List.mem_mapIdx.mp member
    exact getLast_line _ _ _
  rw [idsOf_join some plain]
  apply List.ext_getElem
  · rw [List.length_map, List.length_mapIdx, List.length_mapIdx]
  · intro k _ _
    rw [List.getElem_map, List.getElem_mapIdx, List.getElem_mapIdx]

private theorem notMem_list {ids : List (List Char)} (plain : ∀ id ∈ ids, '\\' ∉ id) :
    '\\' ∉ "%2C".toList.intercalate ids := by
  induction ids with
  | nil => exact List.not_mem_nil
  | cons id ids ih =>
    obtain ⟨now, later⟩ := List.forall_mem_cons.mp plain
    cases ids with
    | nil => rwa [List.intercalate_singleton]
    | cons id' ids =>
      rw [List.intercalate_cons_cons]
      simp only [List.mem_append, not_or]
      exact ⟨⟨now, by decide⟩, ih later⟩

private theorem list_plain (clean : ∀ e ∈ events, e.Clean) :
    '\\' ∉ "%2C".toList.intercalate (events.map Event.id) ∧
      "%2C".toList.intercalate (events.map Event.id) ≠ ['-', 'n'] := by
  constructor
  · refine notMem_list fun id member inside => ?_
    obtain ⟨e, among, rfl⟩ := List.mem_map.mp member
    exact (clean e among).2.1 _ inside (.inr rfl)
  · cases events with
    | nil => decide
    | cons e events =>
      cases events with
      | nil =>
        rw [List.map_singleton, List.intercalate_singleton]
        exact e.printable
      | cons e' events =>
        rw [List.map_cons, List.map_cons, List.intercalate_cons_cons]
        intro same
        have comma : '%' ∈ ['-', 'n'] := by
          rw [← same]
          simp
        revert comma
        decide

private theorem reported_join (filled : events ≠ []) :
    Reported (join '\n' (events.mapIdx fun k e => e.line asduaddr (ts k))) events ↔
      ∀ e ∈ events, e.Clean := by
  constructor
  · intro reported
    have size := reported.lines.length_eq
    have ids := reported.ids
    have free := (length_cut_join_iff _).mp (size.symm.trans List.length_mapIdx.symm)
    rw [ids_of_free filled free] at ids
    intro e member
    obtain ⟨k, short, rfl⟩ := List.mem_iff_getElem.mp member
    have inLines := free _ (List.mem_mapIdx.mpr ⟨k, short, rfl⟩)
    rw [mem_line, not_or] at inLines
    have read := congrArg (·[k]?) ids
    simp only [List.getElem?_mapIdx, List.getElem?_map, List.getElem?_eq_getElem short,
      Option.map_some, Option.some.injEq] at read
    obtain ⟨some, plain⟩ := (readWord_line_event _ _ _).mp read
    exact ⟨some, plain, inLines.2⟩
  · intro clean
    have free : ∀ l ∈ events.mapIdx fun k e => e.line asduaddr (ts k), '\n' ∉ l := by
      intro l member
      obtain ⟨k, short, rfl⟩ := List.mem_mapIdx.mp member
      obtain ⟨_, plain, objaddr⟩ := clean _ (List.getElem_mem short)
      rw [mem_line, not_or]
      exact ⟨fun inside => plain _ inside (.inl rfl), objaddr⟩
    have ids : idsOf (join '\n' (events.mapIdx fun k e => e.line asduaddr (ts k))) =
        events.map Event.id := by
      rw [ids_of_free filled free]
      apply List.ext_getElem
      · rw [List.length_mapIdx, List.length_map]
      · intro k short _
        rw [List.length_mapIdx] at short
        obtain ⟨some, plain, _⟩ := clean _ (List.getElem_mem short)
        rw [List.getElem_mapIdx, List.getElem_map]
        exact (readWord_line_event _ _ _).mpr ⟨some, plain⟩
    refine ⟨?_, ids, ?_⟩
    · rw [cut_join free, List.forall₂_iff_get]
      refine ⟨List.length_mapIdx.symm, ?_⟩
      intro k short long
      simp only [List.get_eq_getElem, List.getElem_mapIdx]
      rw [line_eq]
      exact ⟨Event.tail asduaddr (ts k) events[k], by simp⟩
    · obtain ⟨plain, newline⟩ := list_plain clean
      rw [acknowledged, ids, listid_eq, echo_plain plain newline]
      intro id member
      obtain ⟨e, among, rfl⟩ := List.mem_map.mp member
      exact (clean e among).1

variable (asduaddr events ts)

private theorem reported_passed {jq : Jq} {json text : List Char} (alone : passed json = [text])
    (finds : jq.Finds text events) :
    Reported (ccu825Gprs jq asduaddr json ts) events ↔ events ≠ [] ∧ ∀ e ∈ events, e.Clean := by
  by_cases filled : events = []
  · subst filled
    refine iff_of_false (fun reported => ?_) (fun some => some.1 rfl)
    have size := reported.lines.length_eq
    rw [ccu825Gprs, turns_eq alone finds, if_pos rfl, length_cut] at size
    simp [join] at size
  · rw [ccu825Gprs, turns_eq alone finds, if_neg filled, reported_join filled]
    exact (and_iff_right filled).symm

/-- Whatever else `jq` does, the events are reported one by one if and only if `echo` and `read`
leave the JSON text alone, there are some events, and each is clean. The text may change as long
as `jq` finds the same events in it. -/
theorem reported_iff (json : List Char) :
    ((∀ jq : Jq, jq.Finds (json ++ ['\n']) events →
        Reported (ccu825Gprs jq asduaddr json ts) events) ↔
      (Intact json ∧ json ≠ ['-', 'n']) ∧ events ≠ [] ∧ ∀ e ∈ events, e.Clean) ∧
    ∀ (jq : Jq) (text : List Char), passed json = [text] → jq.Finds text events →
      (Reported (ccu825Gprs jq asduaddr json ts) events ↔
        events ≠ [] ∧ ∀ e ∈ events, e.Clean) := by
  refine ⟨⟨fun always => ?_, ?_⟩, fun jq text => reported_passed asduaddr events ts⟩
  · have finds := Jq.only_finds (json ++ ['\n']) events
    have reported := always _ finds
    by_cases reaches : json ++ ['\n'] ∈ passed json
    · have intact := intact_of_passed reaches
      have alone := passed_intact intact.1 intact.2
      exact ⟨intact, (reported_passed asduaddr events ts alone finds).mp reported⟩
    · exfalso
      -- no text that reaches it has a length
      have noTurn : turns (Jq.only (json ++ ['\n']) events) json = [] := by
        refine List.flatMap_eq_nil_iff.mpr fun string member => ?_
        have other : string ≠ json ++ ['\n'] := fun same => reaches (same ▸ member)
        have length : (Jq.only (json ++ ['\n']) events).length string = "1.5".toList :=
          if_neg other
        rw [length]
        rfl
      rw [ccu825Gprs, noTurn] at reported
      have noEvent : events = [] := List.length_eq_zero_iff.mp reported.lines.length_eq
      have ids := reported.ids
      rw [noEvent] at ids
      cases ids
  · rintro ⟨⟨intact, newline⟩, clean⟩ jq finds
    exact (reported_passed asduaddr events ts (passed_intact intact newline) finds).mpr clean

/-- A blank in front of the text does no harm. -/
theorem reported_fault :
    let e : Event := ⟨['7'], "\"PowerFault\"".toList, "null".toList, by decide⟩
    let text := "\x7b\"Events\":[\x7b\"ID\":7,\"Type\":\"PowerFault\"\x7d]\x7d".toList
    let ts : Nat → Timestamp := fun _ => ⟨"100:59:23:31:7:12:26".toList, by decide⟩
    Reported (ccu825Gprs (Jq.only (text ++ ['\n']) [e]) 3 text ts) [e] ∧
      Reported (ccu825Gprs (Jq.only (text ++ ['\n']) [e]) 3 (' ' :: text) ts) [e] := by
  intro e text ts
  have both := reported_iff 3 [e] ts
  have own : e.Clean := ⟨by decide, List.forall_mem_singleton.mpr (by decide), by decide⟩
  have clean : [e] ≠ [] ∧ ∀ e' ∈ [e], Event.Clean e' :=
    ⟨List.cons_ne_nil _ _, List.forall_mem_singleton.mpr own⟩
  have finds := Jq.only_finds (text ++ ['\n']) [e]
  have trimmed : passed (' ' :: text) = [text ++ ['\n']] := by decide +kernel
  exact ⟨(both text).1.mpr ⟨⟨by decide, by decide⟩, clean⟩ _ finds,
    ((both (' ' :: text)).2 _ _ trimmed finds).mpr clean⟩

/-- Nothing has happened, and two events without a number are printed and acknowledged. -/
theorem reported_none :
    let json := "\x7b\"Events\":[]\x7d".toList
    let jq := Jq.only (json ++ ['\n']) []
    let ts : Nat → Timestamp := fun _ => ⟨"100:59:23:31:7:12:26".toList, by decide⟩
    jq.Finds (json ++ ['\n']) [] ∧
      (cut '\n' (ccu825Gprs jq 3 json ts)).1 = List.replicate 2
        "null \"Event\" 3 0 30 0 - 100:59:23:31:7:12:26".toList ∧
      acknowledged (ccu825Gprs jq 3 json ts) = "null%2Cnull\n".toList ∧
      ¬Reported (ccu825Gprs jq 3 json ts) [] := by
  refine ⟨Jq.only_finds _ _, by decide, by decide, ?_⟩
  intro reported
  exact absurd reported.lines.length_eq (by decide)

end Report

end IecUtils.Scripts.Events
