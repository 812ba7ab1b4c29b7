/- Module: IecUtils/Scripts/Interrogation
   source: scripts/ginterrog, putdbact of scripts/utils/db_utils, scripts/asduconv
   digest: The lines of a general interrogation hold each point once, with the last value that was stored for it. -/

import IecUtils.Asdu.Decode
import IecUtils.Foundation.Words
import IecUtils.Scripts.Quality
import Mathlib.Data.List.Perm.Basic

set_option autoImplicit false
set_option relaxedAutoImplicit false

namespace IecUtils.Scripts.Interrogation

open IecUtils.Foundation.Scan (notMem_toDigits toDigits_isDigit)
open IecUtils.Foundation.Words (words words_intercalate)
open IecUtils.Asdu.Encoding
open IecUtils.Asdu.Assembler
open IecUtils.Asdu.Readback (numeric Object object InRange)
open IecUtils.Asdu.Decode
open IecUtils.Scripts.Quality

section Lines

/-- The characters between two fields: those of the unset IFS, which are also the ones of awk. -/
def blank (c : Char) : Bool := c = ' ' || c = '\t' || c = '\n'

/-- `$i` of a line. -/
def field (i : Nat) (line : List Char) : List Char := (words blank line).getD (i - 1) []

/-- `$3 in ASDU`. -/
def inAsdu (text : List Char) : Option AsduType :=
  if text = ['1'] then some .spNa
  else if text = ['1', '3'] then some .meNc
  else if text = ['3', '0'] then some .spTb
  else if text = ['3', '6'] then some .meTf
  else none

/-- What the awk program makes of a line; `render` is `/usr/bin/printf %a`. -/
def record (render : List Char → List Char) (line : List Char) : Option (Entry Nat Body) :=
  (inAsdu (field 3 line)).map fun type =>
    { ca := decimal (field 1 line)
      oa := decimal (field 2 line)
      type := type
      body := ⟨field 4 line, render (field 4 line), field 5 line, field 6 line⟩ }

/-- `sort -b -s -n -k1,1 -k3,3 -k2,2`, on keys that are decimal numerals. -/
def lineOrder (a b : List Char) : Bool :=
  let key (i : Nat) (line : List Char) : Nat := decimal (field i line)
  key 1 a < key 1 b || key 1 a == key 1 b && (key 3 a < key 3 b ||
    key 3 a == key 3 b && key 2 a ≤ key 2 b)

/-- `asduconv -c cot` on lines. -/
def asduconv (mode : FloatFunc) (render : List Char → List Char) (cot : Nat)
    (lines : List (List Char)) : List (List Char) :=
  (transformAsdu (numeric mode) ((lines.mergeSort lineOrder).map (record render))).map
    (asduHex (numeric mode) cot)

end Lines

section Script

/-- A word that the shell and its `echo` leave as it stands. -/
structure Plain (w : List Char) : Prop where
  some : w ≠ []
  visible : ∀ c ∈ w, blank c = false
  literal : ∀ c ∈ w, c ∉ ['*', '?', '[', '\\']

instance (w : List Char) : Decidable (Plain w) :=
  have : Decidable (∀ c ∈ w, blank c = false) := List.decidableBAll _ w
  have : Decidable (∀ c ∈ w, c ∉ ['*', '?', '[', '\\']) := List.decidableBAll _ w
  decidable_of_iff (w ≠ [] ∧ (∀ c ∈ w, blank c = false) ∧ ∀ c ∈ w, c ∉ ['*', '?', '[', '\\'])
    ⟨fun h => ⟨h.1, h.2.1, h.2.2⟩, fun h => ⟨h.some, h.visible, h.literal⟩⟩

/-- What `echo` prints for words that were not quoted. -/
structure Shell where
  echo : List (List Char) → List Char
  echo_plain : ∀ w ws, w.head? ≠ some '-' → (∀ v ∈ w :: ws, Plain v) →
    echo (w :: ws) = [' '].intercalate (w :: ws)

/-- A line of `find $DB_ACT -type f -printf "%P\n"`. -/
def found (f : File) : List Char := Nat.toDigits 10 f.asduaddr ++ '/' :: f.path

/-- `IFS="/" read comaddr type objaddr`: up to the first slash, and what is behind it. -/
def upToSlash (line : List Char) : List Char := line.takeWhile (· ≠ '/')

def behindSlash (line : List Char) : List Char := (line.dropWhile (· ≠ '/')).drop 1

/-- `cat $DB_ACT/$comaddr/$type/$objaddr 2>/dev/null`. -/
def cat (files : List File) (comaddr type objaddr : List Char) : List Char :=
  ((files.find? fun f => found f = comaddr ++ '/' :: (type ++ '/' :: objaddr)).map
    File.content).getD []

def entryLine (sh : Shell) (files : List File) (line : List Char) : List Char :=
  let comaddr := upToSlash line
  let type := upToSlash (behindSlash line)
  let objaddr := behindSlash (behindSlash line)
  sh.echo ([comaddr, objaddr, type] ++ words blank (cat files comaddr type objaddr))

/-- The script, for the files in the order in which `find` comes across them; without any it
fails. Nothing is stored while it runs. -/
def ginterrog (sh : Shell) (mode : FloatFunc) (render : List Char → List Char)
    (find files : List File) : Option (List (List Char)) :=
  if files = [] then none
  else some (asduconv mode render 20 (find.map fun f => entryLine sh files (found f)))

end Script

section Purpose

theorem no_keys : (([] : List Point).map Point.key).Nodup := List.nodup_nil

def stored (history : List (List Point)) : Database :=
  history.foldl putdbact ⟨[], no_keys⟩

def act (line : Point) : Point := { line with type := actType line.type }

def lastStored (history : List (List Point)) (key : Nat × Nat × Nat) : Option Point :=
  (history.flatten.map act).reverse.find? fun p => p.key = key

def element (render : List Char → List Char) (type : AsduType) (p : Point) : List Char :=
  iehex .one type ⟨p.value, render p.value, p.qds, []⟩

def Before (a b : Object) : Prop :=
  a.ca < b.ca ∨ a.ca = b.ca ∧ (a.type.code < b.type.code ∨ a.type.code = b.type.code ∧ a.oa < b.oa)

/-- What an interrogated station should answer: all points there are, each with the last
value. -/
structure Image (render : List Char → List Char) (history : List (List Point))
    (telegrams : List Telegram) : Prop where
  cause : ∀ t ∈ telegrams, t.cause = 20
  once : (telegrams.flatMap Telegram.objects).Pairwise Before
  latest : ∀ o, o ∈ telegrams.flatMap Telegram.objects ↔
    ∃ p, lastStored history (o.ca, o.type.code, o.oa) = some p ∧
      o.element = element render o.type p

/-- Lines that can be stored: the addresses have 16 and 24 bits, the fields are words. -/
structure Storable (line : Point) : Prop where
  ca : line.asduaddr < 2 ^ 16
  oa : line.objaddr < 2 ^ 24
  value : Plain line.value
  qds : Plain line.qds

end Purpose

section History

private theorem putdbact_concat (db : Database) (lines : List Point) (line : Point) :
    putdbact db (lines ++ [line]) = (putdbact db lines).put (act line) := by
  rw [putdbact, List.foldl_append]
  rfl

theorem stored_eq (history : List (List Point)) :
    stored history = putdbact ⟨[], no_keys⟩ history.flatten := by
  rw [stored, putdbact, List.foldl_flatten]
  rfl

private theorem mem_putdbact_iff (lines : List Point) (p : Point) :
    p ∈ (putdbact ⟨[], List.nodup_nil⟩ lines).points ↔
      (lines.map act).reverse.find? (fun q => q.key = p.key) = some p := by
  induction lines using List.reverseRecOn with
  | nil => simp [putdbact]
  | append_singleton lines line ih =>
    have points : (putdbact ⟨[], List.nodup_nil⟩ (lines ++ [line])).points =
        act line :: (putdbact ⟨[], List.nodup_nil⟩ lines).points.filter fun q =>
          q.key ≠ (act line).key := by
      rw [putdbact_concat]
      rfl
    rw [points, List.map_append, List.reverse_append, List.map_singleton, List.reverse_singleton,
      List.singleton_append, List.find?_cons, List.mem_cons, List.mem_filter, ih]
    by_cases same : (act line).key = p.key
    · simp only [same, decide_true, Option.some.injEq]
      constructor
      · rintro (rfl | ⟨_, other⟩)
        · rfl
        · simp at other
      · rintro rfl
        exact .inl rfl
    · simp only [same, decide_false]
      constructor
      · rintro (rfl | ⟨before, _⟩)
        · exact absurd rfl same
        · exact before
      · intro before
        refine .inr ⟨before, ?_⟩
        simpa using Ne.symm same

theorem mem_stored_iff (history : List (List Point)) (p : Point) :
    p ∈ (stored history).points ↔ lastStored history p.key = some p := by
  rw [stored_eq]
  exact mem_putdbact_iff _ _

theorem key_of_lastStored {history : List (List Point)} {key : Nat × Nat × Nat} {p : Point}
    (last : lastStored history key = some p) : p.key = key := by
  simpa using List.find?_some last

theorem line_of_stored {history : List (List Point)} {p : Point}
    (member : p ∈ (stored history).points) : ∃ line ∈ history.flatten, act line = p := by
  have last := (mem_stored_iff history p).mp member
  have inside := List.mem_of_find?_eq_some last
  rw [List.mem_reverse] at inside
  exact List.mem_map.mp inside

end History

section Words

theorem plain_toDigits (n : Nat) : Plain (Nat.toDigits 10 n) := by
  have digit := toDigits_isDigit n
  refine ⟨?_, ?_, ?_⟩
  · intro none
    have size : 0 < (Nat.toDigits 10 n).length := Nat.length_toDigits_pos
    rw [none] at size
    exact absurd size (Nat.lt_irrefl 0)
  · intro c member
    have isDigit := digit c member
    unfold blank
    by_contra isBlank
    rw [Bool.not_eq_false, Bool.or_eq_true, Bool.or_eq_true] at isBlank
    rcases isBlank with (space | tab) | newline
    · rw [of_decide_eq_true space] at isDigit
      cases isDigit
    · rw [of_decide_eq_true tab] at isDigit
      cases isDigit
    · rw [of_decide_eq_true newline] at isDigit
      cases isDigit
  · intro c member special
    have isDigit := digit c member
    simp only [List.mem_cons, List.not_mem_nil, or_false] at special
    rcases special with rfl | rfl | rfl | rfl <;> cases isDigit

theorem head_toDigits (n : Nat) : (Nat.toDigits 10 n).head? ≠ some '-' := by
  intro minus
  exact notMem_toDigits rfl n (List.mem_of_mem_head? minus)

theorem decimal_toDigits (n : Nat) : decimal (Nat.toDigits 10 n) = n := by
  have all : ∀ c ∈ Nat.toDigits 10 n, c.isDigit = true := toDigits_isDigit n
  rw [decimal, List.takeWhile_eq_self_iff.mpr all, Nat.ofDigitChars_ten_toDigits]

theorem inAsdu_toDigits (n : Nat) : inAsdu (Nat.toDigits 10 n) = typeOf n := by
  have same (k : Nat) : Nat.toDigits 10 n = Nat.toDigits 10 k ↔ n = k :=
    ⟨toDigits_inj, fun equal => congrArg _ equal⟩
  have one := same 1
  have thirteen := same 13
  have thirty := same 30
  have thirtySix := same 36
  rw [show Nat.toDigits 10 1 = ['1'] from rfl] at one
  rw [show Nat.toDigits 10 13 = ['1', '3'] from rfl] at thirteen
  rw [show Nat.toDigits 10 30 = ['3', '0'] from rfl] at thirty
  rw [show Nat.toDigits 10 36 = ['3', '6'] from rfl] at thirtySix
  simp only [inAsdu, typeOf, one, thirteen, thirty, thirtySix]

end Words

section Files

variable (sh : Shell) (render : List Char → List Char)

def pointLine (p : Point) : List Char :=
  [' '].intercalate [Nat.toDigits 10 p.asduaddr, Nat.toDigits 10 p.objaddr,
    Nat.toDigits 10 p.type, p.value, p.qds]

def pointRecord (p : Point) : Option (Entry Nat Body) :=
  (typeOf p.type).map fun type =>
    { ca := p.asduaddr
      oa := p.objaddr
      type := type
      body := ⟨p.value, render p.value, p.qds, []⟩ }

private theorem upToSlash_digits (n : Nat) (rest : List Char) :
    upToSlash (Nat.toDigits 10 n ++ '/' :: rest) = Nat.toDigits 10 n ∧
      behindSlash (Nat.toDigits 10 n ++ '/' :: rest) = rest := by
  have free : ∀ c ∈ Nat.toDigits 10 n, decide (c ≠ '/') = true := by
    intro c member
    have other : c ≠ '/' := fun slash => notMem_toDigits rfl n (slash ▸ member)
    exact decide_eq_true other
  constructor
  · rw [upToSlash, List.takeWhile_append_of_pos free]
    simp
  · rw [behindSlash, List.dropWhile_append_of_pos free]
    simp

private theorem found_inj {f g : File} (same : found f = found g) :
    f.asduaddr = g.asduaddr ∧ f.type = g.type ∧ f.objaddr = g.objaddr := by
  unfold found at same
  have front := congrArg upToSlash same
  have back := congrArg behindSlash same
  rw [(upToSlash_digits _ _).1, (upToSlash_digits _ _).1] at front
  rw [(upToSlash_digits _ _).2, (upToSlash_digits _ _).2] at back
  exact ⟨toDigits_inj front, path_inj back⟩

private theorem words_content {p : Point} (value : Plain p.value) (qds : Plain p.qds) :
    words blank p.content = [p.value, p.qds] := by
  have filled (w : List Char) (plain : Plain w) : w.isEmpty = false :=
    List.isEmpty_eq_false_iff.mpr plain.some
  have space : blank ' ' = true := rfl
  have newline : blank '\n' = true := rfl
  rw [Point.content, List.append_assoc, List.cons_append, words,
    Foundation.Words.wordsFrom_append value.visible, List.nil_append,
    Foundation.Words.wordsFrom, space, if_pos rfl, filled _ value, if_neg Bool.false_ne_true,
    Foundation.Words.wordsFrom_append qds.visible, List.nil_append,
    Foundation.Words.wordsFrom, newline, if_pos rfl, filled _ qds, if_neg Bool.false_ne_true]
  rfl

private theorem cat_stored {db : Database} {p : Point} (member : p ∈ db.points) :
    cat db.files (Nat.toDigits 10 p.asduaddr) (Nat.toDigits 10 p.type)
      (Nat.toDigits 10 p.objaddr) = p.content := by
  have inside : p.file ∈ db.files := List.mem_map_of_mem member
  have name : found p.file = Nat.toDigits 10 p.asduaddr ++
      '/' :: (Nat.toDigits 10 p.type ++ '/' :: Nat.toDigits 10 p.objaddr) := rfl
  unfold cat
  cases search : db.files.find? fun f => found f = Nat.toDigits 10 p.asduaddr ++
      '/' :: (Nat.toDigits 10 p.type ++ '/' :: Nat.toDigits 10 p.objaddr) with
  | none =>
    have absent := List.find?_eq_none.mp search p.file inside
    rw [name] at absent
    simp at absent
  | some f =>
    have here : found f = found p.file := by
      simpa [name] using List.find?_some search
    obtain ⟨q, other, rfl⟩ := List.mem_map.mp (List.mem_of_find?_eq_some search)
    obtain ⟨address, type, objaddr⟩ := found_inj here
    have key : q.key = p.key := Prod.ext address (Prod.ext type objaddr)
    rw [List.inj_on_of_nodup_map db.distinct other member key]
    rfl

theorem entryLine_stored {db : Database} {p : Point} (member : p ∈ db.points)
    (value : Plain p.value) (qds : Plain p.qds) :
    entryLine sh db.files (found p.file) = pointLine p := by
  have path : found p.file = Nat.toDigits 10 p.asduaddr ++ '/' :: p.file.path := rfl
  have rest : p.file.path = Nat.toDigits 10 p.type ++ '/' :: Nat.toDigits 10 p.objaddr := rfl
  rw [entryLine, path, (upToSlash_digits _ _).1, (upToSlash_digits _ _).2, rest,
    (upToSlash_digits _ _).1, (upToSlash_digits _ _).2, cat_stored member,
    words_content value qds]
  have words : [Nat.toDigits 10 p.asduaddr, Nat.toDigits 10 p.objaddr, Nat.toDigits 10 p.type] ++
      [p.value, p.qds] = [Nat.toDigits 10 p.asduaddr, Nat.toDigits 10 p.objaddr,
        Nat.toDigits 10 p.type, p.value, p.qds] := rfl
  refine (congrArg sh.echo words).trans (sh.echo_plain _ _ (head_toDigits _) ?_)
  simp only [List.forall_mem_cons]
  exact ⟨plain_toDigits _, plain_toDigits _, plain_toDigits _, value, qds,
    fun w none => absurd none List.not_mem_nil⟩

variable {p q : Point}

private theorem words_pointLine (value : Plain p.value) (qds : Plain p.qds) :
    words blank (pointLine p) = [Nat.toDigits 10 p.asduaddr, Nat.toDigits 10 p.objaddr,
      Nat.toDigits 10 p.type, p.value, p.qds] := by
  apply words_intercalate rfl
  have word {w : List Char} (plain : Plain w) : w ≠ [] ∧ ∀ c ∈ w, blank c = false :=
    ⟨plain.some, plain.visible⟩
  simp only [List.forall_mem_cons]
  exact ⟨word (plain_toDigits _), word (plain_toDigits _), word (plain_toDigits _), word value,
    word qds, fun w none => absurd none List.not_mem_nil⟩

theorem record_pointLine (value : Plain p.value) (qds : Plain p.qds) :
    record render (pointLine p) = pointRecord render p := by
  simp only [record, field, words_pointLine value qds, pointRecord]
  simp [decimal_toDigits, inAsdu_toDigits]

theorem lineOrder_pointLine (value : Plain p.value) (qds : Plain p.qds) (value' : Plain q.value)
    (qds' : Plain q.qds) :
    lineOrder (pointLine p) (pointLine q) = true ↔
      p.asduaddr < q.asduaddr ∨ p.asduaddr = q.asduaddr ∧
        (p.type < q.type ∨ p.type = q.type ∧ p.objaddr ≤ q.objaddr) := by
  simp only [lineOrder, field, words_pointLine value qds, words_pointLine value' qds']
  simp [decimal_toDigits]

end Files

section Order

variable (render : List Char → List Char)

def KeyBefore (p q : Point) : Prop :=
  p.asduaddr < q.asduaddr ∨ p.asduaddr = q.asduaddr ∧
    (p.type < q.type ∨ p.type = q.type ∧ p.objaddr < q.objaddr)

private theorem lineOrder_trans (a b c : List Char) (first : lineOrder a b = true)
    (second : lineOrder b c = true) : lineOrder a c = true := by
  simp only [lineOrder, Bool.or_eq_true, Bool.and_eq_true, decide_eq_true_eq, beq_iff_eq]
    at first second ⊢
  omega

private theorem lineOrder_total (a b : List Char) : (lineOrder a b || lineOrder b a) = true := by
  simp only [lineOrder, Bool.or_eq_true, Bool.and_eq_true, decide_eq_true_eq, beq_iff_eq]
  omega

/-- However `find` lists the files, the sorted lines are those of the points in the order of
their keys. -/
theorem sorted_lines (sh : Shell) {db : Database} {find : List File}
    (words : ∀ p ∈ db.points, Plain p.value ∧ Plain p.qds) (order : find.Perm db.files) :
    ∃ points : List Point, points.Perm db.points ∧ points.Pairwise KeyBefore ∧
      (find.map fun f => entryLine sh db.files (found f)).mergeSort lineOrder =
        points.map pointLine := by
  have lines : ((find.map fun f => entryLine sh db.files (found f)).mergeSort lineOrder).Perm
      (db.points.map pointLine) := by
    refine (List.mergeSort_perm _ _).trans ((order.map _).trans (List.Perm.of_eq ?_))
    rw [Database.files, List.map_map]
    apply List.map_congr_left
    intro p member
    exact entryLine_stored sh member (words p member).1 (words p member).2
  have image := congrFun (congrFun (List.eq_map_comp_perm pointLine)
    ((find.map fun f => entryLine sh db.files (found f)).mergeSort lineOrder)) db.points
  obtain ⟨points, same, perm⟩ := image.mpr lines
  refine ⟨points, perm, ?_, same⟩
  have sorted := List.pairwise_mergeSort lineOrder_trans lineOrder_total
    (find.map fun f => entryLine sh db.files (found f))
  rw [same, List.pairwise_map] at sorted
  have distinct : (points.map Point.key).Nodup := (perm.map Point.key).nodup_iff.mpr db.distinct
  rw [List.Nodup, List.pairwise_map] at distinct
  refine (sorted.and distinct).imp_of_mem ?_
  rintro p q here there ⟨ordered, apart⟩
  have plain := words p (perm.subset here)
  have plain' := words q (perm.subset there)
  rw [lineOrder_pointLine plain.1 plain.2 plain'.1 plain'.2] at ordered
  have key : ¬(p.asduaddr = q.asduaddr ∧ p.type = q.type ∧ p.objaddr = q.objaddr) := by
    rintro ⟨address, type, objaddr⟩
    exact apart (Prod.ext address (Prod.ext type objaddr))
  unfold KeyBefore
  omega

theorem records_of_lines {points : List Point}
    (words : ∀ p ∈ points, Plain p.value ∧ Plain p.qds) :
    ((points.map pointLine).map (record render)).reduceOption =
      points.filterMap (pointRecord render) := by
  have same : (points.map pointLine).map (record render) = points.map (pointRecord render) := by
    rw [List.map_map]
    apply List.map_congr_left
    intro p member
    exact record_pointLine render (words p member).1 (words p member).2
  rw [same, List.reduceOption, List.filterMap_map]
  rfl

theorem transformAsdu_reduceOption {mode : FloatFunc} (lines : List (Option (Entry Nat Body))) :
    transformAsdu (numeric mode) (lines.reduceOption.map some) =
      transformAsdu (numeric mode) lines := by
  have records : (lines.reduceOption.map some).reduceOption = lines.reduceOption := by
    simp [List.reduceOption]
  rw [transformAsdu_eq, transformAsdu_eq, records]

variable {render}

theorem pointRecord_eq_some {p : Point} {e : Entry Nat Body}
    (known : pointRecord render p = some e) :
    e.ca = p.asduaddr ∧ e.oa = p.objaddr ∧ e.type.code = p.type ∧
      e.body = ⟨p.value, render p.value, p.qds, []⟩ := by
  obtain ⟨type, code, rfl⟩ := Option.map_eq_some_iff.mp known
  exact ⟨rfl, rfl, code_of_typeOf code, rfl⟩

theorem before_of_keyBefore {p q : Point} {e e' : Entry Nat Body} (ordered : KeyBefore p q)
    (first : pointRecord render p = some e) (second : pointRecord render q = some e') :
    Before (object .one e) (object .one e') := by
  obtain ⟨ca, oa, type, _⟩ := pointRecord_eq_some first
  obtain ⟨ca', oa', type', _⟩ := pointRecord_eq_some second
  unfold KeyBefore at ordered
  rw [← ca, ← oa, ← type, ← ca', ← oa', ← type'] at ordered
  exact ordered

end Order

section Image

variable (sh : Shell) (render : List Char → List Char) {history : List (List Point)}
  {find : List File}

/-- No 128 single points of a station have their addresses in a row. -/
def ShortRows (history : List (List Point)) : Prop :=
  ∀ p ∈ history.flatten, actType p.type = 1 →
    ∃ k < 128, ∀ q ∈ history.flatten, q.asduaddr = p.asduaddr → actType q.type = 1 →
      q.objaddr ≠ p.objaddr + k

private theorem stored_storable (storable : ∀ line ∈ history.flatten, Storable line) {p : Point}
    (member : p ∈ (stored history).points) : Storable p := by
  obtain ⟨line, inside, rfl⟩ := line_of_stored member
  obtain ⟨ca, oa, value, qds⟩ := storable line inside
  exact ⟨ca, oa, value, qds⟩

private theorem shortRuns_of_rows (rows : ShortRows history) {points : List Point}
    (inside : ∀ p ∈ points, p ∈ (stored history).points) :
    ShortRuns .one (points.filterMap (pointRecord render)) := by
  intro e member narrow
  obtain ⟨p, there, made⟩ := List.mem_filterMap.mp member
  obtain ⟨ca, oa, type, _⟩ := pointRecord_eq_some made
  obtain ⟨line, written, rfl⟩ := line_of_stored (inside p there)
  have single : e.type = .spNa := by
    cases kind : e.type with
    | spNa => rfl
    | meNc => rw [kind] at narrow; cases narrow
    | spTb => rw [kind] at narrow; cases narrow
    | meTf => rw [kind] at narrow; cases narrow
  have one : actType line.type = 1 := by
    rw [single] at type
    exact type.symm
  obtain ⟨k, small, gap⟩ := rows line written one
  refine ⟨k, small, ?_⟩
  intro e' member' station kind next
  obtain ⟨q, there', made'⟩ := List.mem_filterMap.mp member'
  obtain ⟨ca', oa', type', _⟩ := pointRecord_eq_some made'
  obtain ⟨line', written', rfl⟩ := line_of_stored (inside q there')
  refine gap line' written' ?_ ?_ ?_
  · exact ca'.symm.trans (station.trans ca)
  · rw [kind, single] at type'
    exact type'.symm
  · exact oa'.symm.trans (next.trans (congrArg (· + k) oa))

/-- For every history of stored files and every order in which `find` lists what they left: if
a single point or a measured value was stored, and no 128 single points of a station are in a
row, then the lines of the interrogation are units with cause 20 that hold each point once, in
the order of the addresses, with the value and the quality that were stored last. -/
theorem interrogation_image (storable : ∀ line ∈ history.flatten, Storable line)
    (rows : ShortRows history)
    (some : ∃ line ∈ history.flatten, (typeOf (actType line.type)).isSome = true)
    (order : find.Perm (stored history).files) :
    ∃ (lines : List (List Char)) (telegrams : List Telegram),
      ginterrog sh .one render find (stored history).files = .some lines ∧
      lines.map (readLine .one) = telegrams.map Option.some ∧
      Image render history telegrams := by
  have fit (p : Point) (member : p ∈ (stored history).points) : Storable p :=
    stored_storable storable member
  obtain ⟨points, perm, sorted, same⟩ :=
    sorted_lines sh (fun p member => ⟨(fit p member).value, (fit p member).qds⟩) order
  have inside : ∀ p ∈ points, p ∈ (stored history).points := fun p member => perm.subset member
  have records := records_of_lines render fun p member =>
    ⟨(fit p (inside p member)).value, (fit p (inside p member)).qds⟩
  -- the last line stored under the key of a line that is sent is sent as well
  have nonempty : points.filterMap (pointRecord render) ≠ [] := by
    obtain ⟨line, written, sent⟩ := some
    obtain ⟨p, last⟩ : ∃ p, lastStored history (act line).key = .some p := by
      apply Option.isSome_iff_exists.mp
      rw [lastStored, List.find?_isSome]
      refine ⟨act line, ?_, decide_eq_true rfl⟩
      rw [List.mem_reverse]
      exact List.mem_map_of_mem written
    have key := key_of_lastStored last
    have member : p ∈ points := by
      rw [perm.mem_iff, mem_stored_iff, key]
      exact last
    obtain ⟨type, known⟩ := Option.isSome_iff_exists.mp sent
    have kind : p.type = actType line.type := congrArg (·.2.1) key
    have made : pointRecord render p =
        .some ⟨p.asduaddr, p.objaddr, type, ⟨p.value, render p.value, p.qds, []⟩⟩ := by
      rw [pointRecord, kind, known]
      rfl
    exact List.ne_nil_of_mem (List.mem_filterMap.mpr ⟨p, member, made⟩)
  have range : ∀ e ∈ points.filterMap (pointRecord render), InRange e := by
    intro e member
    obtain ⟨p, there, made⟩ := List.mem_filterMap.mp member
    obtain ⟨ca, oa, _, _⟩ := pointRecord_eq_some made
    have small := fit p (inside p there)
    exact ⟨ca ▸ small.ca, oa ▸ small.oa⟩
  obtain ⟨telegrams, read, cause, objects⟩ := readLine_printed nonempty
    (by decide : 20 < 2 ^ 16) range (shortRuns_of_rows render rows inside)
  have files : (stored history).files ≠ [] := by
    intro none
    rw [Database.files, List.map_eq_nil_iff] at none
    rw [none, List.perm_nil] at perm
    rw [perm] at nonempty
    exact nonempty rfl
  refine ⟨_, telegrams, if_neg files, ?_, cause, ?_, ?_⟩
  · rw [asduconv, same, ← transformAsdu_reduceOption, records]
    exact read
  · rw [objects, List.pairwise_map]
    refine sorted.filterMap _ ?_
    intro p q ordered e first e' second
    exact before_of_keyBefore ordered first second
  · intro o
    rw [objects, List.mem_map]
    constructor
    · rintro ⟨e, member, rfl⟩
      obtain ⟨p, there, made⟩ := List.mem_filterMap.mp member
      obtain ⟨ca, oa, type, body⟩ := pointRecord_eq_some made
      have key : p.key = (e.ca, e.type.code, e.oa) := by
        rw [ca, oa, type]
        rfl
      refine ⟨p, ?_, ?_⟩
      · change lastStored history (e.ca, e.type.code, e.oa) = .some p
        rw [← key, ← mem_stored_iff]
        exact inside p there
      · change iehex .one e.type e.body = _
        rw [body]
        rfl
    · rintro ⟨p, last, content⟩
      have key := key_of_lastStored last
      have address : p.asduaddr = o.ca := congrArg (·.1) key
      have type : p.type = o.type.code := congrArg (·.2.1) key
      have objaddr : p.objaddr = o.oa := congrArg (·.2.2) key
      have member : p ∈ points := by
        rw [perm.mem_iff, mem_stored_iff, key]
        exact last
      have made : pointRecord render p =
          .some ⟨p.asduaddr, p.objaddr, o.type, ⟨p.value, render p.value, p.qds, []⟩⟩ := by
        rw [pointRecord, type, typeOf_code]
        rfl
      refine ⟨_, List.mem_filterMap.mpr ⟨p, member, made⟩, ?_⟩
      cases o
      dsimp only at address objaddr content
      rw [object, address, objaddr, content]
      rfl

def Shell.simple : Shell := ⟨fun ws => [' '].intercalate ws, fun _ _ _ _ => rfl⟩

/-- A point and a measured value with time stamps, then the point again without one. -/
def twoFiles : List (List Point) :=
  [[⟨3, 30, 1, ['1'], ['-']⟩, ⟨3, 36, 101, ['-', '5'], ['N', 'T']⟩], [⟨3, 1, 1, ['0'], ['-']⟩]]

theorem interrogation_image_twoFiles :
    ∃ (lines : List (List Char)) (telegrams : List Telegram),
      ginterrog Shell.simple .one id (stored twoFiles).files.reverse (stored twoFiles).files =
        some lines ∧
      lines.map (readLine .one) = telegrams.map some ∧ Image id twoFiles telegrams := by
  have lines : ∀ line ∈ twoFiles.flatten, line = ⟨3, 30, 1, ['1'], ['-']⟩ ∨
      line = ⟨3, 36, 101, ['-', '5'], ['N', 'T']⟩ ∨ line = ⟨3, 1, 1, ['0'], ['-']⟩ := by
    intro line member
    simpa [twoFiles] using member
  apply interrogation_image
  · intro line member
    rcases lines line member with rfl | rfl | rfl
    · exact ⟨by decide, by decide, by decide, by decide⟩
    · exact ⟨by decide, by decide, by decide, by decide⟩
    · exact ⟨by decide, by decide, by decide, by decide⟩
  · intro p member _
    refine ⟨2, by decide, ?_⟩
    intro q other _ _
    rcases lines p member with rfl | rfl | rfl <;>
      rcases lines q other with rfl | rfl | rfl <;> decide
  · exact ⟨⟨3, 1, 1, ['0'], ['-']⟩, by simp [twoFiles], rfl⟩
  · exact List.reverse_perm _

end Image

end IecUtils.Scripts.Interrogation
