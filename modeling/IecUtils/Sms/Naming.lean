/- Module: IecUtils/Sms/Naming
   source: smsjoin of scripts/utils/sms_utils, on whole listings, and the sort behind it in scripts/smsget
   digest: A line that smsjoin prints names the slots of the messages it holds, and each is named once. -/

import IecUtils.Foundation.Lines
import IecUtils.Sms.Join
import IecUtils.Sms.Listing
import Mathlib.Data.List.Flatten

set_option autoImplicit false
set_option relaxedAutoImplicit false

namespace IecUtils.Sms.Naming

open IecUtils.Foundation (Lines.cut Lines.join Lines.cut_join)
open IecUtils.Foundation.Builtins
open IecUtils.Foundation.Hex hiding value
open IecUtils.Foundation.Tally
open IecUtils.Foundation.Words
open IecUtils.Sms.Shell
open IecUtils.Sms.Pdu
open IecUtils.Sms.Parse
open IecUtils.Sms.Split
open IecUtils.Sms.Record
open IecUtils.Sms.Listing hiding not_final
open IecUtils.Sms.Join

section Program

inductive Verdict where
  | ok
  | error
  | cmsError (code : Nat)
  deriving DecidableEq

def Verdict.line : Verdict → List Char
  | .ok => ['O', 'K']
  | .error => ['E', 'R', 'R', 'O', 'R']
  | .cmsError code =>
      ['+', 'C', 'M', 'S', ' ', 'E', 'R', 'R', 'O', 'R', ':', ' '] ++ Nat.toDigits 10 code

/-- A listing of the messages in the slots. Without a verdict the device fell silent behind
`shown` lines; otherwise the verdict follows that many messages. -/
structure Poll where
  sim : List (Nat × Listed)
  shown : Nat
  verdict : Option Verdict

def Poll.response (p : Poll) : List (List Char) :=
  match p.verdict with
  | none => (listing (p.sim.map Prod.snd)).take p.shown
  | some v => listing ((p.sim.take p.shown).map Prod.snd) ++ [v.line]

variable (files : Pathnames) (c : Collation)

/-- The lines of a text for `sort`, the last of which need not be complete. -/
def sortable (text : List Char) : List (List Char) :=
  (Lines.cut '\n' text).1 ++ [(Lines.cut '\n' text).2].filter fun rest => rest ≠ []

def Poll.records (p : Poll) : List (List Char) :=
  sortLines c (sortable (smsparse files .unset p.response).flatten)

/-- What `smssep` reads. -/
def Poll.lines (p : Poll) : List (List Char) :=
  readLines (Lines.join '\n'
    ((smsjoin (readLines (Lines.join '\n' (p.records files c)))).mergeSort c.le))

/-- A name without the characters that the shell, `echo`, `read`, `awk` or `grep` take for
something else. The words of a name behind the first are files for `grep`, and with a slash one can
be the standard input. -/
def Tame (l : Listed) : Prop :=
  ∀ a ∈ l.message.sender.letters, Char.ofNat a ∉ ['*', '?', '[', '\\', ':', '-', '/']

/-- The words of the first field, which `smsget` takes for slots. -/
def ids (line : List Char) : List (List Char) := words isBlank (field 1 line)

end Program

section Fields

theorem notMem_field (n : Nat) (line : List Char) : ':' ∉ field n line := by
  unfold field
  rw [List.getD_eq_getElem?_getD]
  cases known : (line.splitOn ':')[n - 1]? with
  | none => exact List.not_mem_nil
  | some f => exact notMem_of_mem_splitOn (List.mem_of_getElem? known)

theorem splitOn_front {front : List Char} (plain : ':' ∉ front) (back : List Char) :
    (front ++ ':' :: back).splitOn ':' = front :: back.splitOn ':' := by
  refine (splitOn_eq_iff (List.cons_ne_nil _ _)).mpr ⟨?_, ?_⟩
  · exact List.forall_mem_cons.mpr ⟨plain, fun f => notMem_of_mem_splitOn⟩
  · rw [List.intercalate_cons_of_ne_nil (List.splitOn_ne_nil ':' back), List.intercalate_splitOn]
    simp

theorem field_front {front : List Char} (plain : ':' ∉ front) (back : List Char) :
    field 1 (front ++ ':' :: back) = front := by
  rw [field, splitOn_front plain]
  rfl

theorem field_line {index : List Char} (plain : ':' ∉ index) {f : List Char}
    (fs : List (List Char)) : field 1 ([':'].intercalate (index :: f :: fs)) = index := by
  rw [List.intercalate_cons_cons, List.append_assoc]
  exact field_front plain _

end Fields

section Joining

/-- What is named by the lines that do not pass for the end of the answer. -/
def named (lines : List (List Char)) : List (List Char) :=
  (lines.filter fun line => ¬ Final line).flatMap ids

def offered (lines : List (List Char)) : List (List Char) :=
  (lines.filter fun line => ¬ Final line ∧ field 8 line ≠ []).flatMap ids

/-- A record is in a line: the line is made of it alone, or of all records under its reference
number, as many as they say they are. -/
def Joins (records : List (List Char)) (r line : List Char) : Prop :=
  ¬ Final r ∧ field 8 r ≠ [] ∧
    if field 5 r = [] then
      line = [':'].intercalate [field 1 r, field 2 r, field 3 r, field 4 r, field 8 r]
    else
      ((under key (field 5 r) records).foldl Row.assign .unset).Complete ∧
        line = ((under key (field 5 r) records).foldl Row.assign .unset).line

theorem named_append (as bs : List (List Char)) : named (as ++ bs) = named as ++ named bs := by
  rw [named, List.filter_append, List.flatMap_append]
  rfl

theorem offered_append (as bs : List (List Char)) :
    offered (as ++ bs) = offered as ++ offered bs := by
  rw [offered, List.filter_append, List.flatMap_append]
  rfl

theorem named_sublist (lines : List (List Char)) : (named lines).Sublist (lines.flatMap ids) :=
  List.filter_sublist.flatMap _

theorem words_assign (r : Row) (line : List Char) :
    words isBlank (r.assign line).index = words isBlank r.index ++ ids line := by
  unfold Row.assign
  dsimp only
  split
  · rename_i none
    rw [none]
    rfl
  · exact wordsFrom_blank rfl [] _ _

theorem words_row (r : Row) (lines : List (List Char)) :
    words isBlank (lines.foldl Row.assign r).index =
      words isBlank r.index ++ lines.flatMap ids := by
  induction lines generalizing r with
  | nil => simp
  | cons line lines ih =>
    rw [List.foldl_cons, ih, words_assign, List.flatMap_cons, List.append_assoc]

theorem colon_assign {r : Row} (plain : ':' ∉ r.index) (line : List Char) :
    ':' ∉ (r.assign line).index := by
  have own := notMem_field 1 line
  unfold Row.assign
  dsimp only
  split
  · exact own
  · intro member
    rcases List.mem_append.mp member with before | behind
    · exact plain before
    · exact own (List.mem_of_ne_of_mem (by decide) behind)

theorem colon_row {r : Row} (plain : ':' ∉ r.index) (lines : List (List Char)) :
    ':' ∉ (lines.foldl Row.assign r).index := by
  induction lines generalizing r with
  | nil => exact plain
  | cons line lines ih => exact ih (colon_assign plain line)

def inRow (entry : List Char × Row) : List (List Char) := words isBlank entry.2.index

theorem flatMap_enter (k line : List Char) (rows : List (List Char × Row)) :
    ((enter Row.assign .unset k line rows).flatMap inRow).Perm
      (rows.flatMap inRow ++ ids line) := by
  induction rows with
  | nil =>
    have first : inRow (k, Row.unset.assign line) = ids line := words_assign .unset line
    rw [enter, List.flatMap_cons, List.flatMap_nil, first, List.append_nil, List.nil_append]
  | cons row rows ih =>
    obtain ⟨k', r⟩ := row
    rw [enter]
    split
    · have longer : inRow (k', r.assign line) = inRow (k', r) ++ ids line := words_assign r line
      rw [List.flatMap_cons, List.flatMap_cons, longer, List.append_assoc, List.append_assoc]
      exact List.perm_append_comm.append_left _
    · rw [List.flatMap_cons, List.flatMap_cons, List.append_assoc]
      exact ih.append_left _

def held (s : Awk) : List (List Char) := named s.out ++ s.arrays.flatMap inRow

theorem held_mainRule (s : Awk) (line : List Char) :
    (held (mainRule s line)).Subperm (held s ++ offered [line]) := by
  unfold mainRule
  by_cases final : Final line
  · have silent : named [line] = [] := by simp [named, final]
    rw [if_pos final, held, named_append, silent, List.append_nil]
    exact (List.sublist_append_left _ _).subperm
  · rw [if_neg final]
    by_cases data : field 8 line = []
    · rw [if_pos data]
      exact (List.sublist_append_left _ _).subperm
    · have own : offered [line] = ids line := by simp [offered, final, data]
      rw [if_neg data, own]
      by_cases ref : field 5 line = []
      · rw [if_pos ref, held, held, named_append]
        have same : (named [[':'].intercalate
            [field 1 line, field 2 line, field 3 line, field 4 line, field 8 line]]).Sublist
            (ids line) := by
          apply (named_sublist _).trans
          rw [List.flatMap_cons, List.flatMap_nil, List.append_nil, ids,
            field_line (notMem_field 1 line), ids]
        have sides : (named s.out ++ (ids line ++ s.arrays.flatMap inRow)).Perm
            (named s.out ++ (s.arrays.flatMap inRow ++ ids line)) :=
          List.perm_append_comm.append_left _
        rw [List.append_assoc, List.append_assoc]
        exact ((same.append_right _).append_left _).subperm.trans sides.subperm
      · rw [if_neg ref, held, held, List.append_assoc]
        exact ((flatMap_enter _ line s.arrays).append_left _).subperm

theorem held_foldl (lines : List (List Char)) (s : Awk) :
    (held (lines.foldl mainRule s)).Subperm (held s ++ offered lines) := by
  induction lines generalizing s with
  | nil => exact (List.sublist_append_left _ _).subperm
  | cons line lines ih =>
    have split : offered (line :: lines) = offered [line] ++ offered lines :=
      offered_append [line] lines
    rw [List.foldl_cons, split, ← List.append_assoc]
    refine (ih _).trans ?_
    exact (List.subperm_append_right _).mpr (held_mainRule s line)

theorem named_smsjoin (lines : List (List Char)) :
    (named (smsjoin lines)).Subperm (offered lines) := by
  have all := held_foldl lines ⟨[], []⟩
  have start : held ⟨[], []⟩ = [] := rfl
  rw [start, List.nil_append] at all
  have ends : (named (endRule (lines.foldl mainRule ⟨[], []⟩))).Sublist
      ((lines.foldl mainRule ⟨[], []⟩).arrays.flatMap inRow) := by
    apply (named_sublist _).trans
    have rows : (endRule (lines.foldl mainRule ⟨[], []⟩)).flatMap ids =
        ((lines.foldl mainRule ⟨[], []⟩).arrays.filter fun e => e.2.Complete).flatMap inRow := by
      unfold endRule
      rw [List.flatMap_map]
      apply List.flatMap_congr
      intro entry inside
      have holds : Holds key Row.assign .unset lines (lines.foldl mainRule ⟨[], []⟩).arrays := by
        rw [arrays_eq]
        exact holds_foldl lines
      have row := ((holds.mem_iff entry.1 entry.2).mp (List.mem_filter.mp inside).1).2
      have plain : ':' ∉ entry.2.index := by
        rw [row]
        exact colon_row (by simp [Row.unset]) _
      unfold ids inRow Row.line
      rw [field_line plain]
    rw [rows]
    exact List.filter_sublist.flatMap _
  unfold smsjoin
  rw [named_append]
  exact (ends.append_left _).subperm.trans all

theorem out_foldl (lines : List (List Char)) (s : Awk) :
    ∀ text ∈ (lines.foldl mainRule s).out, text ∈ s.out ∨ (Final text ∧ text ∈ lines) ∨
      ∃ r ∈ lines, ¬ Final r ∧ field 8 r ≠ [] ∧ field 5 r = [] ∧
        text = [':'].intercalate [field 1 r, field 2 r, field 3 r, field 4 r, field 8 r] := by
  induction lines generalizing s with
  | nil => exact fun text member => .inl member
  | cons line lines ih =>
    intro text member
    rw [List.foldl_cons] at member
    rcases ih _ text member with old | ⟨final, later⟩ | ⟨r, later, rest⟩
    · unfold mainRule at old
      split_ifs at old with final data ref
      · rcases List.mem_append.mp old with before | now
        · exact .inl before
        · obtain rfl := List.mem_singleton.mp now
          exact .inr (.inl ⟨final, List.mem_cons_self⟩)
      · exact .inl old
      · rcases List.mem_append.mp old with before | now
        · exact .inl before
        · exact .inr (.inr ⟨line, List.mem_cons_self, final, data, ref, List.mem_singleton.mp now⟩)
      · exact .inl old
    · exact .inr (.inl ⟨final, List.mem_cons_of_mem _ later⟩)
    · exact .inr (.inr ⟨r, List.mem_cons_of_mem _ later, rest⟩)

theorem joins_of_mem {lines : List (List Char)} {text : List Char} (member : text ∈ smsjoin lines)
    (go : ¬ Final text) {i : List Char} (names : i ∈ ids text) :
    ∃ r ∈ lines, Joins lines r text ∧ i ∈ ids r := by
  unfold smsjoin at member
  rcases List.mem_append.mp member with out | ends
  · rcases out_foldl lines _ text out with none | ⟨final, _⟩ | ⟨r, among, final, data, ref, rfl⟩
    · cases none
    · exact absurd final go
    · refine ⟨r, among, ⟨final, data, ?_⟩, ?_⟩
      · rw [if_pos ref]
      · rw [ids, field_line (notMem_field 1 r)] at names
        exact names
  · obtain ⟨ref, _, complete, rfl⟩ := (mem_endRule lines text).mp ends
    have plain : ':' ∉ ((under key ref lines).foldl Row.assign .unset).index :=
      colon_row (by simp [Row.unset]) _
    rw [ids, Row.line, field_line plain, words_row] at names
    obtain ⟨r, inside, own⟩ := List.mem_flatMap.mp ((List.mem_append.mp names).resolve_left nofun)
    obtain ⟨among, entered⟩ := List.mem_filter.mp inside
    have known : key r = some ref := of_decide_eq_true entered
    unfold key at known
    split at known
    · cases known
    · rename_i fields
      push Not at fields
      obtain ⟨final, data, numbered⟩ := fields
      obtain rfl := Option.some.inj known
      refine ⟨r, among, ⟨final, data, ?_⟩, own⟩
      rw [if_neg numbered]
      exact ⟨complete, rfl⟩

end Joining

section Reading

/-- What no `read` takes away from a line. -/
def Legible (cs : List Char) : Prop := ∀ c ∈ cs, c ≠ '\\' ∧ c ≠ '\n' ∧ c ≠ Char.ofNat 0

/-- Lines that the loops over `read` take as they are, in front of `awk` and behind it. -/
structure Clean (line : List Char) : Prop where
  intact : Intact line
  data : ∀ c ∈ field 8 line, isBlank c = false

theorem field_subset (n : Nat) (line : List Char) : field n line ⊆ line := by
  unfold field
  rw [List.getD_eq_getElem?_getD]
  cases known : (line.splitOn ':')[n - 1]? with
  | none => exact List.nil_subset _
  | some f =>
    have inside : f ⊆ [':'].intercalate (line.splitOn ':') :=
      subset_intercalate (List.mem_of_getElem? known)
    rwa [List.intercalate_splitOn] at inside

theorem head_field {line : List Char} {c : Char} (isHead : c ∈ (field 1 line).head?) :
    c ∈ line.head? := by
  obtain ⟨f, fs, parts⟩ := List.exists_cons_of_ne_nil (List.splitOn_ne_nil ':' line)
  have first : field 1 line = f := by
    rw [field, parts]
    rfl
  have text : [':'].intercalate (line.splitOn ':') = line := List.intercalate_splitOn ':'
  rw [parts] at text
  rw [first] at isHead
  have some : f ≠ [] := by
    rintro rfl
    cases isHead
  rwa [← text, head?_intercalate some]

theorem intact_fields {index data : List Char} {fs : List (List Char)}
    (legible : ∀ f ∈ index :: (fs ++ [data]), Legible f)
    (first : ∀ c ∈ index.head?, isBlank c = false) (last : ∀ c ∈ data, isBlank c = false) :
    Intact ([':'].intercalate (index :: (fs ++ [data]))) := by
  constructor
  · intro c member
    rcases mem_intercalate member with rfl | ⟨f, among, inside⟩
    · decide
    · exact legible f among c inside
  · intro c isHead
    by_cases none : index = []
    · rw [none, List.intercalate_cons_of_ne_nil (by simp)] at isHead
      obtain rfl : ':' = c := Option.some.inj isHead
      decide
    · rw [head?_intercalate none] at isHead
      exact first c isHead
  · intro c isLast
    rw [← List.cons_append, intercalate_concat (List.cons_ne_nil _ _) data,
      List.getLast?_append_of_ne_nil _ (List.cons_ne_nil _ _), List.getLast?_cons] at isLast
    cases ends : data.getLast? with
    | none =>
      rw [ends] at isLast
      obtain rfl : ':' = c := Option.some.inj isLast
      decide
    | some d =>
      rw [ends] at isLast
      obtain rfl : d = c := Option.some.inj isLast
      exact last d (List.mem_of_mem_getLast? ends)

structure CleanRow (r : Row) : Prop where
  legible : ∀ f ∈ [r.index, r.num, r.dcs, r.scts, r.data], Legible f
  first : ∀ c ∈ r.index.head?, isBlank c = false
  data : ∀ c ∈ r.data, isBlank c = false

theorem cleanRow_unset : CleanRow .unset :=
  ⟨by simp [Row.unset, Legible], nofun, nofun⟩

theorem cleanRow_assign {r : Row} (row : CleanRow r) {line : List Char} (clean : Clean line) :
    CleanRow (r.assign line) := by
  have own (n : Nat) : Legible (field n line) :=
    fun c member => clean.intact.plain c (field_subset n line member)
  have join {as bs : List Char} (front : Legible as) (back : Legible bs) : Legible (as ++ bs) :=
    fun c member => (List.mem_append.mp member).elim (front c) (back c)
  have space : Legible [' '] := by
    rintro c member
    rw [List.mem_singleton.mp member]
    decide
  have old := row.legible
  simp only [List.forall_mem_cons] at old
  have first : ∀ c ∈ (field 1 line).head?, isBlank c = false :=
    fun c isHead => clean.intact.first c (head_field isHead)
  unfold Row.assign
  constructor
  · simp only [List.forall_mem_cons]
    refine ⟨?_, own 2, own 3, own 4, join old.2.2.2.2.1 (own 8), nofun⟩
    split
    · exact own 1
    · exact join old.1 (join space (own 1))
  · dsimp only
    split
    · exact first
    · rename_i some
      intro c isHead
      rw [List.head?_append_of_ne_nil _ some] at isHead
      exact row.first c isHead
  · exact fun c member => (List.mem_append.mp member).elim (row.data c) (clean.data c)

theorem cleanRow_foldl {r : Row} (row : CleanRow r) {lines : List (List Char)}
    (clean : ∀ line ∈ lines, Clean line) : CleanRow (lines.foldl Row.assign r) := by
  induction lines generalizing r with
  | nil => exact row
  | cons line lines ih =>
    obtain ⟨now, later⟩ := List.forall_mem_cons.mp clean
    exact ih (cleanRow_assign row now) later

theorem intact_smsjoin {lines : List (List Char)} (clean : ∀ line ∈ lines, Clean line) :
    ∀ text ∈ smsjoin lines, Intact text := by
  intro text member
  unfold smsjoin at member
  rcases List.mem_append.mp member with out | ends
  · rcases out_foldl lines _ text out with none | ⟨_, among⟩ | ⟨r, among, _, _, _, rfl⟩
    · cases none
    · exact (clean text among).intact
    · have one := cleanRow_assign cleanRow_unset (clean r among)
      exact @intact_fields _ _ [_, _, _] one.legible one.first one.data
  · obtain ⟨ref, _, _, rfl⟩ := (mem_endRule lines text).mp ends
    have among : ∀ line ∈ under key ref lines, Clean line :=
      fun line inside => clean line (List.mem_of_mem_filter inside)
    have row := cleanRow_foldl cleanRow_unset among
    exact @intact_fields _ _ [_, _, _] row.legible row.first row.data

theorem lines_of_clean {files : Pathnames} {c : Collation} {p : Poll}
    (clean : ∀ line ∈ p.records files c, Clean line) :
    p.lines files c = (smsjoin (p.records files c)).mergeSort c.le := by
  unfold Poll.lines
  rw [readLines_join fun line member => (clean line member).intact]
  apply readLines_join
  intro text member
  exact intact_smsjoin clean text ((List.mergeSort_perm _ _).mem_iff.mp member)

end Reading

section Listing

variable {files : Pathnames} {c : Collation}

def recordLine (index : List Char) (v : Vars) : List Char :=
  [':'].intercalate (index :: squeeze isBlank ' ' v.oaNum :: (printed v).tail)

def RecordOf (files : Pathnames) (l : Listed) (r : List Char) : Prop :=
  ∃ v, Tidy v ∧ Parse.record files l.index (readPdu l.message.pdu v) = r ++ ['\n']

private theorem char_ne_zero : ∀ a < 128, a ≠ 0 → Char.ofNat a ≠ Char.ofNat 0 := by
  decide

theorem oaNum_tame {l : Listed} (tame : Tame l) (v : Vars) :
    ∀ c ∈ (readPdu l.message.pdu v).oaNum,
      c ∉ ['*', '?', '[', '\\', ':', '-', '/'] ∧ c ≠ Char.ofNat 0 := by
  intro c member
  by_cases number : kind l.message.sender ≠ .alphanum
  · have plain := plain_oaNum number v c member
    constructor
    · intro other
      simp only [List.mem_cons, List.not_mem_nil, or_false] at other
      rcases other with rfl | rfl | rfl | rfl | rfl | rfl | rfl <;> cases plain
    · rintro rfl
      cases plain
  · have name : kind l.message.sender = .alphanum := not_not.mp number
    rw [readPdu_pdu, readAddress_cut (cut_name name)] at member
    dsimp only at member
    rw [readBody_oaNum] at member
    obtain ⟨a, inside, some, rfl⟩ : ∃ a ∈ l.message.sender.letters, a ≠ 0 ∧ Char.ofNat a = c := by
      cases sender : l.message.sender with
      | alphanumeric n octets size fill =>
        rw [sender] at member
        have whole := (List.rdropWhile_prefix (fun d => decide (d = '\n'))
          (l := chars (Sender.alphanumeric n octets size fill).letters)).subset member
        obtain ⟨a, inside, same⟩ := List.mem_map.mp whole
        obtain ⟨among, some⟩ := List.mem_filter.mp inside
        exact ⟨a, among, of_decide_eq_true some, same⟩
      | international ds => rw [sender] at name; cases name
      | unknown ds => rw [sender] at name; cases name
    exact ⟨tame a inside, char_ne_zero a (letters_lt _ a inside) some⟩

theorem clean_recordLine {index : List Char} (plain : Plain index) {v : Vars} (tidy : Tidy v)
    (literal : ∀ c ∈ v.oaNum, c ≠ '\\' ∧ c ≠ ':' ∧ c ≠ Char.ofNat 0) :
    Clean (recordLine index v) ∧ (recordLine index v).splitOn ':' =
      index :: squeeze isBlank ' ' v.oaNum :: (printed v).tail := by
  have legible {f : List Char} (letters : Plain f) : Legible f := by
    intro c member
    obtain ⟨blank, _, backslash, _⟩ := alphanum_other (letters c member)
    refine ⟨backslash, ?_, ?_⟩
    · rintro rfl
      cases blank
    · rintro rfl
      cases letters _ member
  have name : Legible (squeeze isBlank ' ' v.oaNum) ∧ ':' ∉ squeeze isBlank ' ' v.oaNum := by
    constructor
    · intro c member
      have feed : c ≠ '\n' := by
        rintro rfl
        have spaced : Spaced isBlank ' ' (squeeze isBlank ' ' v.oaNum) := spaced_squeeze v.oaNum
        cases spaced.same '\n' member rfl
      rcases mem_squeeze member with rfl | own
      · decide
      · exact ⟨(literal c own).1, feed, (literal c own).2.2⟩
    · intro member
      rcases mem_squeeze member with blank | own
      · cases blank
      · exact (literal _ own).2.1 rfl
  have split : (recordLine index v).splitOn ':' =
      index :: squeeze isBlank ' ' v.oaNum :: (printed v).tail := by
    refine (splitOn_eq_iff (List.cons_ne_nil _ _)).mpr ⟨?_, rfl⟩
    refine List.forall_mem_cons.mpr ⟨(sound_plain plain).1, List.forall_mem_cons.mpr ⟨name.2, ?_⟩⟩
    exact fun f member => (sound_plain (tidy f member)).1
  refine ⟨⟨?_, fun c member => ?_⟩, split⟩
  · refine @intact_fields _ _ [_, _, _, _, _, _] ?_ ?_ ?_
    · refine List.forall_mem_cons.mpr ⟨legible plain, List.forall_mem_cons.mpr ⟨name.1, ?_⟩⟩
      exact fun f member => legible (tidy f member)
    · exact fun c isHead => blank_alphanum (plain c (List.mem_of_mem_head? isHead))
    · exact fun c member => blank_alphanum (tidy v.ud (by simp [printed]) c member)
  · rw [field, split] at member
    exact blank_alphanum (tidy v.ud (by simp [printed]) c member)

theorem record_tame (files : Pathnames) {l : Listed} (tame : Tame l) {v : Vars} (tidy : Tidy v) :
    Parse.record files l.index (readPdu l.message.pdu v) =
        recordLine l.index (readPdu l.message.pdu v) ++ ['\n'] ∧
      Clean (recordLine l.index (readPdu l.message.pdu v)) ∧
        field 1 (recordLine l.index (readPdu l.message.pdu v)) = l.index := by
  have rest := tidy_readPdu (plain_pdu l.message) tidy
  have literal := oaNum_tame tame v
  obtain ⟨clean, split⟩ := clean_recordLine (plain_index l) rest fun c member => by
    have ⟨others, zero⟩ := literal c member
    exact ⟨fun same => others (by simp [same]), fun same => others (by simp [same]), zero⟩
  refine ⟨record_literal (plain_index l) rest fun c member => ?_, clean, ?_⟩
  · have ⟨others, _⟩ := literal c member
    simp only [List.mem_cons, List.not_mem_nil, or_false, not_or] at others
    obtain ⟨star, question, bracket, backslash, _⟩ := others
    exact ⟨by simp [isPattern, star, question, bracket], backslash⟩
  · rw [field, split]
    rfl

theorem line_of_recordOf {l : Listed} (tame : Tame l) {r : List Char} (own : RecordOf files l r) :
    Clean r ∧ ids r = [l.index] := by
  obtain ⟨v, tidy, text⟩ := own
  obtain ⟨line, clean, first⟩ := record_tame files tame tidy
  obtain rfl := List.append_cancel_right (line.symm.trans text)
  have alone : words isBlank ([' '].intercalate [l.index]) = [l.index] := by
    apply words_intercalate rfl
    intro w member
    obtain rfl := List.mem_singleton.mp member
    exact ⟨l.index_some, fun c inside => blank_alphanum (plain_index l c inside)⟩
  rw [List.intercalate_singleton] at alone
  exact ⟨clean, by rw [ids, first, alone]⟩

theorem tidy_reset {v : Vars} (tidy : Tidy v) : Tidy v.reset := by
  obtain ⟨_, _, _, total, ser, _⟩ := tidy_iff.mp tidy
  exact tidy_iff.mpr ⟨plain_nil, plain_nil, plain_nil, total, ser, plain_nil⟩

def printedLines (lines : List (List Char)) : List (List Char) :=
  lines.map fun line => line ++ ['\n']

theorem smsparse_listing (files : Pathnames) {ls : List Listed} (tame : ∀ l ∈ ls, Tame l) {v : Vars}
    (tidy : Tidy v) :
    ∃ rs w, List.Forall₂ (RecordOf files) ls rs ∧ Tidy w ∧
      ∀ tail, smsparse files v (listing ls ++ tail) = printedLines rs ++ smsparse files w tail := by
  induction ls generalizing v with
  | nil => exact ⟨[], v, .nil, tidy, fun _ => rfl⟩
  | cons l ls ih =>
    obtain ⟨now, later⟩ := List.forall_mem_cons.mp tame
    have next := tidy_reset (tidy_readPdu (plain_pdu l.message) tidy)
    obtain ⟨rs, w, made, kept, rest⟩ := ih later next
    have line := (record_tame files now tidy).1
    refine ⟨recordLine l.index (readPdu l.message.pdu v) :: rs, w, .cons ⟨v, tidy, line⟩ made, kept,
      fun tail => ?_⟩
    change smsparse files v (indexLine l :: l.message.pdu :: (listing ls ++ tail)) = _
    rw [smsparse, if_neg (Listing.not_final l), smsind_indexLine, rest, line]
    rfl

def Silent (x : List Char) : Prop := (Final x ∨ field 8 x = []) ∧ Clean x

theorem half_entry (files : Pathnames) (l : Listed) {v : Vars} (tidy : Tidy v) :
    ∃ r, smsparse files v [indexLine l] = printedLines [r] ∧ Silent r := by
  have rest : Tidy (readPdu [] v) := tidy_readPdu plain_nil tidy
  have address : (readPdu [] v).oaNum = [] := rfl
  have data : (readPdu [] v).ud = [] := rfl
  obtain ⟨clean, split⟩ := clean_recordLine (plain_index l) rest (by rw [address]; exact nofun)
  refine ⟨recordLine l.index (readPdu [] v), ?_, .inr ?_, clean⟩
  · rw [smsparse, if_neg (Listing.not_final l), smsind_indexLine,
      record_literal (plain_index l) rest (by rw [address]; exact nofun)]
    rfl
  · rw [field, split]
    exact data

theorem take_listing (ls : List Listed) (k : Nat) :
    ∃ n tail, (listing ls).take k = listing (ls.take n) ++ tail ∧
      (tail = [] ∨ ∃ l ∈ ls, tail = [indexLine l]) := by
  induction ls generalizing k with
  | nil => exact ⟨0, [], by simp [listing], .inl rfl⟩
  | cons l ls ih =>
    rcases k with _ | _ | k
    · exact ⟨0, [], by simp [listing], .inl rfl⟩
    · exact ⟨0, [indexLine l], by simp [listing], .inr ⟨l, List.mem_cons_self, rfl⟩⟩
    · obtain ⟨n, tail, taken, ends⟩ := ih k
      refine ⟨n + 1, tail, ?_, ?_⟩
      · change indexLine l :: l.message.pdu :: (listing ls).take k = _
        rw [taken]
        rfl
      · rcases ends with none | ⟨l', among, half⟩
        · exact .inl none
        · exact .inr ⟨l', List.mem_cons_of_mem _ among, half⟩

theorem field_eight {line : List Char} (plain : ':' ∉ line) : field 8 line = [] := by
  have alone : line.splitOn ':' = [line] := (splitOn_eq_iff (List.cons_ne_nil line [])).mpr
    ⟨by simpa using plain, List.intercalate_singleton.symm⟩
  rw [field, alone]
  rfl

theorem verdict_words (files : Pathnames) (v : Verdict) (w : Vars) :
    ∃ extra, smsparse files w [v.line] = printedLines extra ∧ ∀ x ∈ extra, Silent x := by
  have final : Final v.line := by
    cases v with
    | ok => decide
    | error => decide
    | cmsError code =>
      exact .inr ⟨['+', 'C', 'M', 'S', ' '], [':', ' '] ++ Nat.toDigits 10 code, rfl⟩
  have literal : ∀ c ∈ v.line, isPattern c = false ∧ c ≠ '\\' ∧ c ≠ Char.ofNat 0 := by
    cases v with
    | ok => simp [Verdict.line, isPattern]
    | error => simp [Verdict.line, isPattern]
    | cmsError code =>
      intro c member
      rcases List.mem_append.mp member with text | number
      · have letters : ∀ c ∈ ['+', 'C', 'M', 'S', ' ', 'E', 'R', 'R', 'O', 'R', ':', ' '],
            isPattern c = false ∧ c ≠ '\\' ∧ c ≠ Char.ofNat 0 := by simp [isPattern]
        exact letters c text
      · have digit := plain_toDigits code c number
        obtain ⟨_, pattern, backslash, _⟩ := alphanum_other digit
        refine ⟨pattern, backslash, ?_⟩
        rintro rfl
        cases digit
  have clean : ∀ x ∈ words isBlank v.line, Clean x := by
    intro x member
    have all : ∀ u ∈ words isBlank v.line, u ≠ [] ∧ ∀ c ∈ u, isBlank c = false :=
      wordsFrom_plain (fun _ member => absurd member List.not_mem_nil) v.line
    have visible := (all x member).2
    have own := subset_of_mem_words member
    refine ⟨⟨fun c inside => ⟨(literal c (own inside)).2.1, ?_, (literal c (own inside)).2.2⟩,
      fun c isHead => visible c (List.mem_of_mem_head? isHead),
      fun c isLast => visible c (List.mem_of_mem_getLast? isLast)⟩,
      fun c inside => visible c (field_subset 8 x inside)⟩
    rintro rfl
    cases visible _ inside
  refine ⟨words isBlank v.line, ?_, fun x member => ⟨?_, clean x member⟩⟩
  · rw [smsparse, if_pos final, Pathnames.unquoted_eq fun x member => files.expand_plain x
      fun c inside => (literal c (subset_of_mem_words member inside)).1]
    rfl
  · revert x
    cases v with
    | ok => decide +kernel
    | error => decide +kernel
    | cmsError code =>
      have digits : ∀ c ∈ Nat.toDigits 10 code, isBlank c = false :=
        fun c member => blank_alphanum (plain_toDigits code c member)
      have text : (Verdict.cmsError code).line = [' '].intercalate
          [['+', 'C', 'M', 'S'], ['E', 'R', 'R', 'O', 'R', ':'], Nat.toDigits 10 code] := by
        simp [Verdict.line, List.intercalate_cons_cons]
      have parts : words isBlank (Verdict.cmsError code).line =
          [['+', 'C', 'M', 'S'], ['E', 'R', 'R', 'O', 'R', ':'], Nat.toDigits 10 code] := by
        rw [text]
        apply words_intercalate rfl
        simp only [List.forall_mem_cons]
        exact ⟨by simp [isBlank], by simp [isBlank], ⟨Nat.toDigits_ne_nil, digits⟩, by simp⟩
      rw [parts]
      simp only [List.forall_mem_cons]
      refine ⟨.inr (by decide +kernel), .inl (by decide), .inr (field_eight fun colon => ?_),
        by simp⟩
      cases plain_toDigits code ':' colon

theorem sortable_printedLines {lines : List (List Char)} (clean : ∀ x ∈ lines, Clean x) :
    sortable (printedLines lines).flatten = lines := by
  have text : (printedLines lines).flatten = Lines.join '\n' lines := rfl
  rw [sortable, text,
    Lines.cut_join fun x member feed => ((clean x member).intact.plain _ feed).2.1 rfl]
  exact List.append_nil lines

theorem recordOf_of_mem {ls : List Listed} {rs : List (List Char)}
    (made : List.Forall₂ (RecordOf files) ls rs) {r : List Char} (member : r ∈ rs) :
    ∃ l ∈ ls, RecordOf files l r := by
  induction made with
  | nil => cases member
  | cons own _ ih =>
    rcases List.mem_cons.mp member with rfl | later
    · exact ⟨_, List.mem_cons_self, own⟩
    · obtain ⟨l, among, made⟩ := ih later
      exact ⟨l, List.mem_cons_of_mem _ among, made⟩

theorem response_records (files : Pathnames) {p : Poll} (tame : ∀ e ∈ p.sim, Tame e.2) :
    ∃ n rs extra, List.Forall₂ (RecordOf files) ((p.sim.take n).map Prod.snd) rs ∧
      sortable (smsparse files .unset p.response).flatten = rs ++ extra ∧
        (∀ r ∈ rs, Clean r) ∧ ∀ x ∈ extra, Silent x := by
  have tidy : Tidy .unset := tidy_iff.mpr ⟨plain_nil, plain_nil, plain_nil, plain_nil, plain_nil,
    plain_nil⟩
  have tame' : ∀ l ∈ p.sim.map Prod.snd, Tame l := List.forall_mem_map.mpr tame
  have shown (n : Nat) : ∀ l ∈ (p.sim.map Prod.snd).take n, Tame l :=
    fun l inside => tame' l (List.mem_of_mem_take inside)
  -- from the records of the listing and what is printed behind them
  have both {n : Nat} {rs extra : List (List Char)} {w : Vars} {tail : List (List Char)}
      (made : List.Forall₂ (RecordOf files) ((p.sim.map Prod.snd).take n) rs)
      (rest : smsparse files .unset (listing ((p.sim.map Prod.snd).take n) ++ tail) =
        printedLines rs ++ smsparse files w tail)
      (behind : smsparse files w tail = printedLines extra) (silent : ∀ x ∈ extra, Silent x) :
      List.Forall₂ (RecordOf files) ((p.sim.take n).map Prod.snd) rs ∧
        sortable (smsparse files .unset
          (listing ((p.sim.map Prod.snd).take n) ++ tail)).flatten = rs ++ extra ∧
            (∀ r ∈ rs, Clean r) ∧ ∀ x ∈ extra, Silent x := by
    have clean : ∀ r ∈ rs, Clean r := by
      intro r member
      obtain ⟨l, among, own⟩ := recordOf_of_mem made member
      exact (line_of_recordOf (shown n l among) own).1
    refine ⟨by rwa [List.map_take], ?_, clean, silent⟩
    have all : printedLines rs ++ printedLines extra = printedLines (rs ++ extra) :=
      (List.map_append ..).symm
    rw [rest, behind, all]
    apply sortable_printedLines
    intro x member
    rcases List.mem_append.mp member with inside | inside
    · exact clean x inside
    · exact (silent x inside).2
  unfold Poll.response
  cases p.verdict with
  | none =>
    obtain ⟨n, tail, taken, ends⟩ := take_listing (p.sim.map Prod.snd) p.shown
    obtain ⟨rs, w, made, kept, rest⟩ := smsparse_listing files (shown n) tidy
    dsimp only
    rw [taken]
    rcases ends with rfl | ⟨l, _, rfl⟩
    · exact ⟨n, rs, [], both made (rest []) rfl nofun⟩
    · obtain ⟨r, alone, silent⟩ := half_entry files l kept
      exact ⟨n, rs, [r], both made (rest _) alone (List.forall_mem_singleton.mpr silent)⟩
  | some v =>
    obtain ⟨rs, w, made, _, rest⟩ := smsparse_listing files (shown p.shown) tidy
    obtain ⟨extra, printed, silent⟩ := verdict_words files v w
    dsimp only
    rw [List.map_take]
    exact ⟨p.shown, rs, extra, both made (rest _) printed silent⟩

theorem offered_records {ls : List Listed} (tame : ∀ l ∈ ls, Tame l) {rs : List (List Char)}
    (made : List.Forall₂ (RecordOf files) ls rs) :
    (offered rs).Sublist (ls.map Listed.index) := by
  have all : rs.flatMap ids = ls.map Listed.index := by
    induction made with
    | nil => rfl
    | cons own _ ih =>
      obtain ⟨now, later⟩ := List.forall_mem_cons.mp tame
      rw [List.flatMap_cons, (line_of_recordOf now own).2, ih later, List.map_cons,
        List.singleton_append]
  rw [← all]
  exact List.filter_sublist.flatMap _

theorem offered_silent {extra : List (List Char)} (silent : ∀ x ∈ extra, Silent x) :
    offered extra = [] := by
  have none : extra.filter (fun line => ¬ Final line ∧ field 8 line ≠ []) = [] := by
    rw [List.filter_eq_nil_iff]
    intro x member
    rcases (silent x member).1 with final | empty <;> simp_all
  rw [offered, none, List.flatMap_nil]

theorem lines_perm {p : Poll} (tame : ∀ e ∈ p.sim, Tame e.2) :
    (p.lines files c).Perm (smsjoin (p.records files c)) := by
  obtain ⟨n, rs, extra, _, parsed, clean, silent⟩ := response_records files tame
  rw [lines_of_clean]
  · exact List.mergeSort_perm _ _
  · intro line member
    have inside : line ∈ rs ++ extra := by
      rw [← parsed]
      exact (List.mergeSort_perm _ _).mem_iff.mp member
    rcases List.mem_append.mp inside with record | other
    · exact clean line record
    · exact (silent line other).2

theorem named_nodup {p : Poll} (tame : ∀ e ∈ p.sim, Tame e.2)
    (slots : (p.sim.map fun e => e.2.index).Nodup) : (named (p.lines files c)).Nodup := by
  obtain ⟨n, rs, extra, made, parsed, clean, silent⟩ := response_records files tame
  have sorted : (named (p.lines files c)).Perm (named (smsjoin (p.records files c))) :=
    ((lines_perm tame).filter _).flatMap_right _
  have records : (offered (p.records files c)).Perm (offered rs) := by
    have permuted : (offered (p.records files c)).Perm (offered (rs ++ extra)) := by
      rw [← parsed]
      exact ((List.mergeSort_perm _ _).filter _).flatMap_right _
    rw [offered_append, offered_silent silent, List.append_nil] at permuted
    exact permuted
  have shown : ((p.sim.take n).map Prod.snd).map Listed.index =
      (p.sim.map fun e => e.2.index).take n := by
    rw [List.map_map, List.map_take]
    rfl
  have once : (offered rs).Nodup := by
    have part := offered_records (List.forall_mem_map.mpr fun e inside =>
      tame e (List.mem_of_mem_take inside)) made
    rw [shown] at part
    exact (slots.sublist (List.take_sublist _ _)).sublist part
  rw [sorted.nodup_iff]
  obtain ⟨l, perm, part⟩ := named_smsjoin (p.records files c)
  exact perm.nodup_iff.mp ((records.nodup_iff.mpr once).sublist part)

/-- What a line names is the slot of a message that was listed, and the whole message is in the
line. -/
theorem names_message {p : Poll} (tame : ∀ e ∈ p.sim, Tame e.2) {line : List Char}
    (member : line ∈ p.lines files c) (go : ¬ Final line) {i : List Char} (names : i ∈ ids line) :
    ∃ e ∈ p.sim, e.2.index = i ∧ ∃ r, RecordOf files e.2 r ∧ Joins (p.records files c) r line := by
  obtain ⟨r, among, joins, own⟩ := joins_of_mem ((lines_perm tame).mem_iff.mp member) go names
  obtain ⟨n, rs, extra, made, parsed, _, silent⟩ := response_records files tame
  have inside : r ∈ rs ++ extra := by
    rw [← parsed]
    exact (List.mergeSort_perm _ _).mem_iff.mp among
  rcases List.mem_append.mp inside with whole | mute
  · obtain ⟨l, among, isRecord⟩ := recordOf_of_mem made whole
    obtain ⟨e, shown, rfl⟩ := List.mem_map.mp among
    have listed := List.mem_of_mem_take shown
    rw [(line_of_recordOf (tame e listed) isRecord).2] at own
    exact ⟨e, listed, (List.mem_singleton.mp own).symm, r, isRecord, joins⟩
  · rcases (silent r mute).1 with final | empty
    · exact absurd final joins.1
    · exact absurd empty joins.2.1

end Listing

end IecUtils.Sms.Naming
