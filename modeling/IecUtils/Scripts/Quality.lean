/- Module: IecUtils/Scripts/Quality
   source: putdbact and setdbact_qds of scripts/utils/db_utils
   digest: The files of the last values, and the marking of those of one station as not topical. -/

import IecUtils.Foundation.Scan
import Mathlib.Data.List.Infix
import Mathlib.Data.List.Nodup
import Mathlib.Tactic.Ring

set_option autoImplicit false
set_option relaxedAutoImplicit false

namespace IecUtils.Scripts.Quality

open IecUtils.Foundation.Scan (notMem_toDigits)

section Files

/-- A file of `$DB_ACT`: the directories and the name that lead to it, and what it holds. -/
structure File where
  asduaddr : Nat
  type : Nat
  objaddr : Nat
  content : List Char
  deriving DecidableEq

/-- A value as `putdbact` stores it. -/
structure Point where
  asduaddr : Nat
  type : Nat
  objaddr : Nat
  value : List Char
  qds : List Char
  deriving DecidableEq

def Point.key (p : Point) : Nat × Nat × Nat := (p.asduaddr, p.type, p.objaddr)

/-- `echo "$value" "$qds"`. -/
def Point.content (p : Point) : List Char := p.value ++ ' ' :: p.qds ++ ['\n']

def Point.file (p : Point) : File := ⟨p.asduaddr, p.type, p.objaddr, p.content⟩

/-- There is one file under a name. -/
structure Database where
  points : List Point
  distinct : (points.map Point.key).Nodup

/-- The types with a time stamp are stored as those without. -/
def actType (type : Nat) : Nat := if type = 30 then 1 else if type = 36 then 13 else type

def Database.put (db : Database) (p : Point) : Database where
  points := p :: db.points.filter fun q => q.key ≠ p.key
  distinct := by
    rw [List.map_cons, List.nodup_cons]
    refine ⟨?_, List.Nodup.sublist (List.filter_sublist.map Point.key) db.distinct⟩
    intro again
    obtain ⟨q, member, same⟩ := List.mem_map.mp again
    simp [same] at member

/-- The lines of a file, one after the other; the time stamps are read and left out. -/
def putdbact (db : Database) (lines : List Point) : Database :=
  lines.foldl (fun db line => db.put { line with type := actType line.type }) db

/-- `find -printf "%P\n"` below the directory of an address. -/
def File.path (f : File) : List Char := Nat.toDigits 10 f.type ++ '/' :: Nat.toDigits 10 f.objaddr

def pattern : List Char := ['1', '0', '0', '0']

/-- `grep -v "1000"`. -/
def listing (asduaddr : Nat) (files : List File) : List (List Char) :=
  ((files.filter fun f => f.asduaddr = asduaddr).map File.path).filter fun line =>
    ¬pattern <:+: line

end Files

section Editing

/-- What the flags are for `sed` between the second slash of its command and the third: the text
that replaces each minus sign, an error, or something else, where a slash ends the text early or
a backslash stands in front of a letter. -/
inductive Script where
  | replace (text : List Char)
  | error
  | other

def Script.cons (c : Char) : Script → Script
  | .replace text => .replace (c :: text)
  | .error => .error
  | .other => .other

def script : List Char → Script
  | [] => .replace []
  | ['\\'] => .error
  | '\\' :: c :: cs =>
      if c = 'n' then (script cs).cons '\n'
      else if c.isAlpha || c = '0' then .other
      else if c.isDigit then .error
      else (script cs).cons c
  | c :: cs =>
      if c = '/' then .other
      else if c = '\n' then .error
      else if c = '&' then (script cs).cons '-'
      else (script cs).cons c

example : script ['\\', '&', '&'] = .replace ['&', '-'] := rfl
example : script ['N', '\\'] = .error := rfl

def substitute (replacement : List Char) (text : List Char) : List Char :=
  text.flatMap fun c => if c = '-' then replacement else [c]

/-- The editor, with what it makes of a text. An error leaves the file as it is. -/
structure Sed where
  run : List Char → List Char → List Char
  run_replace : ∀ flags text t, script flags = .replace t → run flags text = substitute t text
  run_error : ∀ flags text, script flags = .error → run flags text = text

/-- `sed -i` on one file. -/
def edit (sed : Sed) (asduaddr : Nat) (flags : List Char) (files : List File)
    (filename : List Char) : List File :=
  files.map fun f =>
    if f.asduaddr = asduaddr ∧ f.path = filename then { f with content := sed.run flags f.content }
    else f

def setdbactQds (sed : Sed) (asduaddr : Nat) (flags : List Char) (files : List File) : List File :=
  if listing asduaddr files = [] then files
  else (listing asduaddr files).foldl (edit sed asduaddr flags) files

def Point.marked (asduaddr : Nat) (flags : List Char) (p : Point) : Point :=
  if p.asduaddr = asduaddr ∧ p.objaddr ≠ 1000 ∧ p.qds = ['-'] then { p with qds := flags } else p

end Editing

section Texts

theorem substitute_append (flags as bs : List Char) :
    substitute flags (as ++ bs) = substitute flags as ++ substitute flags bs :=
  List.flatMap_append

theorem substitute_of_notMem {flags text : List Char} (none : '-' ∉ text) :
    substitute flags text = text := by
  induction text with
  | nil => rfl
  | cons c cs ih =>
    rw [List.mem_cons, not_or] at none
    change (if c = '-' then flags else [c]) ++ substitute flags cs = c :: cs
    rw [if_neg (Ne.symm none.1), ih none.2, List.singleton_append]

theorem substitute_minus (text : List Char) : substitute ['-'] text = text := by
  induction text with
  | nil => rfl
  | cons c cs ih =>
    change (if c = '-' then ['-'] else [c]) ++ substitute ['-'] cs = c :: cs
    rw [ih]
    by_cases minus : c = '-'
    · rw [if_pos minus, minus, List.singleton_append]
    · rw [if_neg minus, List.singleton_append]

private theorem count_substitute (t text : List Char) {c : Char} (other : c ≠ '-') :
    (substitute t text).count c = text.count '-' * t.count c + text.count c := by
  induction text with
  | nil => simp [substitute]
  | cons d text ih =>
    have step : (substitute t (d :: text)).count c =
        (if d = '-' then t else [d]).count c + (substitute t text).count c :=
      List.count_append
    rw [step, ih, List.count_cons, List.count_cons]
    by_cases minus : d = '-'
    · subst minus
      simp only [if_true, beq_self_eq_true, beq_iff_eq, Ne.symm other, if_false, Nat.add_mul,
        Nat.one_mul]
      omega
    · simp only [minus, if_false, List.count_singleton, beq_iff_eq, Nat.add_zero]
      omega

private theorem count_substitute_minus (t text : List Char) :
    (substitute t text).count '-' = text.count '-' * t.count '-' := by
  induction text with
  | nil => simp [substitute]
  | cons d text ih =>
    have step : (substitute t (d :: text)).count '-' =
        (if d = '-' then t else [d]).count '-' + (substitute t text).count '-' :=
      List.count_append
    rw [step, ih, List.count_cons]
    by_cases minus : d = '-'
    · subst minus
      simp only [if_true, beq_self_eq_true, Nat.add_mul, Nat.one_mul]
      omega
    · simp [minus]

private theorem length_substitute (t text : List Char) :
    (substitute t text).length + text.count '-' =
      text.length + text.count '-' * t.length := by
  induction text with
  | nil => simp [substitute]
  | cons c cs ih =>
    have step : (substitute t (c :: cs)).length =
        (if c = '-' then t else [c]).length + (substitute t cs).length :=
      List.length_append
    rw [step, List.count_cons, List.length_cons]
    by_cases minus : c = '-'
    · subst minus
      simp only [beq_self_eq_true, if_true, Nat.add_mul, Nat.one_mul]
      omega
    · simp only [minus, if_false, beq_iff_eq, List.length_singleton, Nat.add_zero]
      omega

theorem substitute_eq_self_iff {t text : List Char} :
    substitute t text = text ↔ t = ['-'] ∨ '-' ∉ text := by
  constructor
  · intro same
    by_cases none : '-' ∉ text
    · exact .inr none
    · have some := List.count_pos_iff.mpr (not_not.mp none)
      have sizes := length_substitute t text
      have signs := count_substitute_minus t text
      rw [same] at sizes signs
      have one : t.length = 1 := Nat.eq_of_mul_eq_mul_left some (by omega)
      have minus : t.count '-' = 1 := Nat.eq_of_mul_eq_mul_left some (by omega)
      obtain ⟨c, rfl⟩ := List.length_eq_one_iff.mp one
      have member : '-' ∈ [c] := List.count_pos_iff.mp (by omega)
      rw [List.mem_singleton.mp member]
      exact .inl rfl
  · rintro (rfl | none)
    · exact substitute_minus text
    · exact substitute_of_notMem none

theorem cons_eq_replace {s : Script} {c : Char} {t : List Char} (read : s.cons c = .replace t) :
    ∃ u, s = .replace u ∧ t = c :: u := by
  cases s with
  | replace u =>
    cases read
    exact ⟨u, rfl, rfl⟩
  | error => cases read
  | other => cases read

theorem script_counts {flags t : List Char} (read : script flags = .replace t) :
    t.length ≤ flags.length ∧
      flags.count '\\' + t.length = flags.length + t.count '\\' := by
  induction flags using script.induct generalizing t with
  | case1 =>
    cases read
    decide
  | case2 => cases read
  | case3 cs ih =>
    rw [script, if_pos rfl] at read
    obtain ⟨u, inner, rfl⟩ := cons_eq_replace read
    have back := ih inner
    simp only [List.length_cons, List.count_cons_self,
      List.count_cons_of_ne (show 'n' ≠ '\\' by decide),
      List.count_cons_of_ne (show '\n' ≠ '\\' by decide)]
    omega
  | case4 c cs feed extension =>
    rw [script, if_neg feed, if_pos extension] at read
    cases read
  | case5 c cs feed extension digit =>
    rw [script, if_neg feed, if_neg extension, if_pos digit] at read
    cases read
  | case6 c cs feed extension digit ih =>
    rw [script, if_neg feed, if_neg extension, if_neg digit] at read
    obtain ⟨u, inner, rfl⟩ := cons_eq_replace read
    have back := ih inner
    simp only [List.length_cons, List.count_cons, beq_self_eq_true, if_true]
    omega
  | case7 cs single pair =>
    rw [script, if_pos rfl] at read
    · cases read
    · exact single
    · exact pair
  | case8 cs single pair slash =>
    rw [script, if_neg slash, if_pos rfl] at read
    · cases read
    · exact single
    · exact pair
  | case9 cs single pair slash feed ih =>
    rw [script, if_neg slash, if_neg feed, if_pos rfl] at read
    · obtain ⟨u, inner, rfl⟩ := cons_eq_replace read
      have back := ih inner
      simp only [List.length_cons, List.count_cons_of_ne (show '&' ≠ '\\' by decide),
        List.count_cons_of_ne (show '-' ≠ '\\' by decide)]
      omega
    · exact single
    · exact pair
  | case10 c cs single pair slash feed whole ih =>
    rw [script, if_neg slash, if_neg feed, if_neg whole] at read
    · obtain ⟨u, inner, rfl⟩ := cons_eq_replace read
      have back := ih inner
      have other : c ≠ '\\' := by
        rintro rfl
        cases cs with
        | nil => exact single rfl rfl
        | cons d cs => exact pair d cs rfl rfl
      simp only [List.length_cons, List.count_cons_of_ne other]
      omega
    · exact single
    · exact pair

private theorem script_pair {c : Char} {cs t : List Char}
    (read : script ('\\' :: c :: cs) = .replace t) (plain : c = '\\' ∨ c = '-') : ∃ u, script cs = .replace u ∧ t = c :: u := by
  apply cons_eq_replace
  rcases plain with rfl | rfl <;> exact read

private theorem nil_of_backslashes {u : List Char} (backslashes : ∀ c ∈ u, '\\' = c)
    (read : script u = .replace u) : u = [] := by
  cases u with
  | nil => rfl
  | cons c u =>
    exfalso
    obtain rfl := backslashes c List.mem_cons_self
    cases u with
    | nil => cases read
    | cons d u =>
      obtain rfl := backslashes d (List.mem_cons_of_mem _ List.mem_cons_self)
      obtain ⟨w, inner, same⟩ := script_pair read (.inl rfl)
      obtain rfl := (List.cons.inj same).2
      have short := (script_counts inner).1
      rw [List.length_cons] at short
      omega

theorem eq_of_marked {flags t value : List Char} (read : script flags = .replace t)
    (marked : substitute t value ++ ' ' :: t = value ++ ' ' :: flags) : t = flags := by
  by_cases none : '-' ∉ value
  · rw [substitute_of_notMem none] at marked
    exact (List.cons.inj (List.append_cancel_left marked)).2
  · have inside := not_not.mp none
    have some := List.count_pos_iff.mpr inside
    obtain ⟨short, escapes⟩ := script_counts read
    have sizes := length_substitute t value
    have backslashes := count_substitute t value (show '\\' ≠ '-' by decide)
    have sizes' : (substitute t value).length + t.length = value.length + flags.length := by
      have all := congrArg List.length marked
      simp only [List.length_append, List.length_cons] at all
      omega
    have backslashes' : (substitute t value).count '\\' + t.count '\\' =
        value.count '\\' + flags.count '\\' := by
      have all := congrArg (List.count '\\') marked
      rwa [List.count_append, List.count_append, List.count_cons_of_ne (by decide),
        List.count_cons_of_ne (by decide)] at all
    -- the text is a minus sign and backslashes
    have one : t.length = 1 + t.count '\\' := by
      apply Nat.eq_of_mul_eq_mul_left some
      rw [Nat.mul_add, Nat.mul_one]
      omega
    obtain ⟨front, back, rfl, first⟩ := List.eq_append_cons_of_mem inside
    have start : t ++ (substitute t back ++ ' ' :: t) = '-' :: (back ++ ' ' :: flags) := by
      have minus : substitute t ('-' :: back) = t ++ substitute t back := rfl
      rw [substitute_append, substitute_of_notMem first, minus] at marked
      simpa using marked
    obtain ⟨u, rfl⟩ : ∃ u, t = '-' :: u := by
      cases t with
      | nil =>
        rw [List.length_nil] at one
        omega
      | cons c u => exact ⟨u, by rw [(List.cons.inj start).1]⟩
    have all : ∀ c ∈ u, '\\' = c := by
      apply List.count_eq_length.mp
      rw [List.length_cons, List.count_cons_of_ne (by decide)] at one
      omega
    -- so are the flags, with more backslashes in front
    obtain ⟨pre, rfl⟩ : '-' :: u <:+ flags := by
      apply List.suffix_of_suffix_length_le _ _ short
      · exact (front ++ '-' :: back ++ [' ']) ++ flags
      · rw [List.append_assoc, List.singleton_append, ← marked]
        exact (List.suffix_cons _ _).trans (List.suffix_append _ _)
      · exact List.suffix_append _ _
    have more : ∀ c ∈ pre, '\\' = c := by
      apply List.count_eq_length.mp
      rw [List.count_append, List.length_append] at escapes
      omega
    cases pre with
    | nil => rfl
    | cons c pre =>
      exfalso
      obtain rfl := more c List.mem_cons_self
      cases pre with
      | nil =>
        obtain ⟨w, inner, same⟩ := script_pair read (.inr rfl)
        obtain rfl := (List.cons.inj same).2
        obtain rfl := nil_of_backslashes all inner
        simp only [List.length_cons, List.length_nil, List.length_append] at sizes sizes'
        omega
      | cons d pre =>
        obtain rfl := more d (List.mem_cons_of_mem _ List.mem_cons_self)
        obtain ⟨w, _, same⟩ := script_pair read (.inl rfl)
        cases (List.cons.inj same).1

end Texts

section Loop

variable (sed : Sed) (asduaddr : Nat) (flags : List Char)

private theorem edit_key (f : File) (filename : List Char) :
    let g := if f.asduaddr = asduaddr ∧ f.path = filename then
      { f with content := sed.run flags f.content } else f
    g.asduaddr = f.asduaddr ∧ g.path = f.path := by
  intro g
  by_cases hit : f.asduaddr = asduaddr ∧ f.path = filename
  · rw [show g = _ from if_pos hit]
    exact ⟨rfl, rfl⟩
  · rw [show g = f from if_neg hit]
    exact ⟨rfl, rfl⟩

theorem foldl_edit {names : List (List Char)} (once : names.Nodup) (files : List File) :
    names.foldl (edit sed asduaddr flags) files = files.map fun f =>
      if f.asduaddr = asduaddr ∧ f.path ∈ names then { f with content := sed.run flags f.content }
      else f := by
  induction names generalizing files with
  | nil => simp
  | cons name names ih =>
    obtain ⟨first, later⟩ := List.nodup_cons.mp once
    rw [List.foldl_cons, ih later, edit, List.map_map]
    apply List.map_congr_left
    intro f _
    obtain ⟨address, path⟩ := edit_key sed asduaddr flags f name
    rw [Function.comp_apply, address, path]
    by_cases hit : f.asduaddr = asduaddr ∧ f.path = name
    · rw [if_pos hit, if_neg (fun again => first (hit.2 ▸ again.2)),
        if_pos ⟨hit.1, hit.2 ▸ List.mem_cons_self⟩]
    · rw [if_neg hit]
      by_cases listed : f.asduaddr = asduaddr ∧ f.path ∈ names
      · rw [if_pos listed, if_pos ⟨listed.1, List.mem_cons_of_mem _ listed.2⟩]
      · rw [if_neg listed, if_neg]
        rintro ⟨same, member⟩
        rcases List.mem_cons.mp member with here | there
        · exact hit ⟨same, here⟩
        · exact listed ⟨same, there⟩

end Loop

section Paths

theorem toDigits_inj {m n : Nat} (same : Nat.toDigits 10 m = Nat.toDigits 10 n) : m = n := by
  rw [← Nat.ofDigitChars_ten_toDigits (n := m), same, Nat.ofDigitChars_ten_toDigits]

theorem path_inj {f g : File} (same : f.path = g.path) :
    f.type = g.type ∧ f.objaddr = g.objaddr := by
  unfold File.path at same
  have front := congrArg (List.takeWhile (· ≠ '/')) same
  have taken (m n : Nat) : (Nat.toDigits 10 m ++ '/' :: Nat.toDigits 10 n).takeWhile (· ≠ '/') =
      Nat.toDigits 10 m := by
    rw [List.takeWhile_append_of_pos]
    · simp
    · intro c member
      have other : c ≠ '/' := fun slash => notMem_toDigits rfl m (slash ▸ member)
      simpa using other
  rw [taken, taken] at front
  refine ⟨toDigits_inj front, ?_⟩
  rw [front, List.append_cancel_left_eq, List.cons.injEq] at same
  exact toDigits_inj same.2

theorem pattern_path {f : File} (object : f.objaddr = 1000) : pattern <:+: f.path := by
  refine ⟨Nat.toDigits 10 f.type ++ ['/'], [], ?_⟩
  rw [File.path, object, List.append_assoc, List.append_nil, List.append_assoc]
  rfl

end Paths

section Frame

variable (sed : Sed) (asduaddr : Nat) (flags : List Char)

def Database.files (db : Database) : List File := db.points.map Point.file

theorem nodup_listing (db : Database) : (listing asduaddr db.files).Nodup := by
  apply List.Nodup.filter
  rw [List.nodup_map_iff_inj_on]
  · intro f member g other same
    obtain ⟨type, objaddr⟩ := path_inj same
    obtain ⟨inside, here⟩ := List.mem_filter.mp member
    obtain ⟨inside', here'⟩ := List.mem_filter.mp other
    obtain ⟨p, left, rfl⟩ := List.mem_map.mp inside
    obtain ⟨q, right, rfl⟩ := List.mem_map.mp inside'
    have address : p.asduaddr = q.asduaddr :=
      (of_decide_eq_true here).trans (of_decide_eq_true here').symm
    have key : p.key = q.key := Prod.ext address (Prod.ext type objaddr)
    rw [List.inj_on_of_nodup_map db.distinct left right key]
  · apply List.Nodup.filter
    apply List.Nodup.of_map (fun f : File => (f.asduaddr, f.type, f.objaddr))
    rw [Database.files, List.map_map]
    exact db.distinct

theorem mem_listing {files : List File} {f : File} (member : f ∈ files)
    (here : f.asduaddr = asduaddr) : f.path ∈ listing asduaddr files ↔ ¬pattern <:+: f.path := by
  rw [listing, List.mem_filter, decide_eq_true_eq]
  refine and_iff_right (List.mem_map_of_mem ?_)
  exact List.mem_filter.mpr ⟨member, decide_eq_true here⟩

theorem setdbactQds_eq (db : Database) :
    setdbactQds sed asduaddr flags db.files = db.points.map fun p =>
      if p.asduaddr = asduaddr ∧ ¬pattern <:+: p.file.path then
        { p.file with content := sed.run flags p.content }
      else p.file := by
  have loop : setdbactQds sed asduaddr flags db.files =
      (listing asduaddr db.files).foldl (edit sed asduaddr flags) db.files := by
    unfold setdbactQds
    split
    · rename_i none
      rw [none, List.foldl_nil]
    · rfl
  rw [loop, foldl_edit sed asduaddr flags (nodup_listing asduaddr db), Database.files, List.map_map]
  apply List.map_congr_left
  intro p member
  have inside : p.file ∈ db.files := List.mem_map_of_mem member
  rw [Function.comp_apply]
  by_cases here : p.asduaddr = asduaddr
  · have listed := mem_listing asduaddr inside here
    exact if_congr (and_congr_right fun _ => listed) rfl rfl
  · rw [if_neg (fun hit => here hit.1), if_neg (fun hit => here hit.1)]

/-- A point gets the right quality. If it is passed over, or `sed` reports an error, there must be
nothing to mark, or the flags are the mark that it has. Otherwise flags that are to stand there must
stand for themselves, and there is no minus sign but the quality, or each becomes one again. -/
def Point.Suits (p : Point) : Prop :=
  if pattern <:+: p.file.path then p.qds = ['-'] → flags = ['-']
  else match script flags with
    | .replace t =>
        if p.qds = ['-'] then t = flags ∧ (flags = ['-'] ∨ '-' ∉ p.value)
        else t = ['-'] ∨ '-' ∉ p.value ∧ '-' ∉ p.qds
    | .error => p.qds ≠ ['-']
    | .other => sed.run flags p.content = (p.marked asduaddr flags).content

private theorem marked_file_eq_iff {p : Point} (here : p.asduaddr = asduaddr)
    (object : p.objaddr ≠ 1000) :
    p.file = (p.marked asduaddr flags).file ↔ (p.qds = ['-'] → flags = ['-']) := by
  unfold Point.marked
  by_cases quality : p.qds = ['-']
  · rw [if_pos ⟨here, object, quality⟩]
    constructor
    · intro same _
      have content := congrArg File.content same
      change p.value ++ ' ' :: p.qds ++ ['\n'] = p.value ++ ' ' :: flags ++ ['\n'] at content
      rw [List.append_cancel_right_eq, List.append_cancel_left_eq, List.cons.injEq] at content
      rw [← content.2, quality]
    · intro same
      rw [same quality, ← quality]
  · rw [if_neg (fun all => quality all.2.2)]
    exact ⟨fun _ wrong => (quality wrong).elim, fun _ => rfl⟩

private theorem content_marked {p : Point} (here : p.asduaddr = asduaddr)
    (object : p.objaddr ≠ 1000) :
    (p.marked asduaddr flags).content =
      p.value ++ ' ' :: (if p.qds = ['-'] then flags else p.qds) ++ ['\n'] := by
  unfold Point.marked
  by_cases quality : p.qds = ['-']
  · rw [if_pos ⟨here, object, quality⟩, if_pos quality]
    rfl
  · rw [if_neg (fun all => quality all.2.2), if_neg quality]
    rfl

private theorem edited_file_eq_iff (p : Point) :
    { p.file with content := sed.run flags p.content } = (p.marked asduaddr flags).file ↔
      sed.run flags p.content = (p.marked asduaddr flags).content := by
  have name : (p.marked asduaddr flags).asduaddr = p.asduaddr ∧
      (p.marked asduaddr flags).type = p.type ∧ (p.marked asduaddr flags).objaddr = p.objaddr := by
    unfold Point.marked
    split
    · exact ⟨rfl, rfl, rfl⟩
    · exact ⟨rfl, rfl, rfl⟩
  simp [Point.file, name]

private theorem substitute_content_iff {t : List Char} (read : script flags = .replace t)
    (value qds : List Char) :
    substitute t (value ++ ' ' :: qds ++ ['\n']) =
        value ++ ' ' :: (if qds = ['-'] then flags else qds) ++ ['\n'] ↔
      if qds = ['-'] then t = flags ∧ (flags = ['-'] ∨ '-' ∉ value)
      else t = ['-'] ∨ '-' ∉ value ∧ '-' ∉ qds := by
  have parts : substitute t (value ++ ' ' :: qds ++ ['\n']) =
      substitute t value ++ ' ' :: substitute t qds ++ ['\n'] := by
    rw [substitute_append, substitute_append, ← List.singleton_append, substitute_append]
    rfl
  by_cases quality : qds = ['-']
  · have alone : substitute t ['-'] = t := by simp [substitute]
    rw [parts, if_pos quality, if_pos quality, quality, alone, List.append_cancel_right_eq]
    constructor
    · intro same
      obtain rfl := eq_of_marked read same
      rw [List.append_cancel_right_eq] at same
      exact ⟨rfl, substitute_eq_self_iff.mp same⟩
    · rintro ⟨rfl, free⟩
      rw [substitute_eq_self_iff.mpr free]
  · rw [if_neg quality, if_neg quality, substitute_eq_self_iff]
    simp [not_or]

/-- `setdbact_qds` marks the points of a station, and leaves all else as it is, if and only if
every point of the station but object 1000 suits. -/
theorem setdbactQds_marks_iff (db : Database) :
    setdbactQds sed asduaddr flags db.files =
        (db.points.map (Point.marked asduaddr flags)).map Point.file ↔
      ∀ p ∈ db.points, p.asduaddr = asduaddr → p.objaddr ≠ 1000 →
        p.Suits sed asduaddr flags := by
  rw [setdbactQds_eq, List.map_map, List.map_inj_left]
  apply forall₂_congr
  intro p member
  rw [Function.comp_apply]
  by_cases here : p.asduaddr = asduaddr
  · by_cases object : p.objaddr = 1000
    · have skip : pattern <:+: p.file.path := pattern_path object
      have still : p.marked asduaddr flags = p := if_neg fun all => all.2.1 object
      rw [if_neg (fun hit => hit.2 skip), still]
      exact ⟨fun _ _ other => (other object).elim, fun _ => rfl⟩
    · rw [imp_iff_right here, imp_iff_right object, Point.Suits]
      by_cases skip : pattern <:+: p.file.path
      · rw [if_neg (fun hit => hit.2 skip), if_pos skip,
          marked_file_eq_iff asduaddr flags here object]
      · rw [if_pos ⟨here, skip⟩, if_neg skip]
        cases read : script flags with
        | replace t =>
          rw [edited_file_eq_iff, sed.run_replace flags _ t read,
            content_marked asduaddr flags here object]
          exact substitute_content_iff flags read p.value p.qds
        | error =>
          have other : flags ≠ ['-'] := by
            rintro rfl
            cases read
          rw [sed.run_error flags _ read]
          exact (marked_file_eq_iff asduaddr flags here object).trans
            (imp_congr_right fun _ => iff_false_intro other)
        | other => exact edited_file_eq_iff sed asduaddr flags p
  · have still : p.marked asduaddr flags = p := if_neg fun all => here all.1
    rw [if_neg (fun hit => here hit.1), still]
    exact ⟨fun _ same => (here same).elim, fun _ => rfl⟩

def Sed.simple : Sed where
  run flags text :=
    match script flags with
    | .replace t => substitute t text
    | .error => text
    | .other => text
  run_replace _ _ _ read := by rw [read]
  run_error _ _ read := by rw [read]

/-- Measured values of one station, one of them below zero, as the poll of an RTU stores them. -/
def station : Database :=
  putdbact ⟨[], List.nodup_nil⟩
    [⟨3, 36, 101, ['-', '5'], ['-']⟩, ⟨3, 36, 10001, ['7'], ['-']⟩]

/-- The minus sign of a value becomes flags, and object 10001 is not marked. -/
theorem setdbactQds_station :
    setdbactQds Sed.simple 3 ['N', 'T'] station.files =
        [⟨3, 13, 10001, ['7', ' ', '-', '\n']⟩,
          ⟨3, 13, 101, ['N', 'T', '5', ' ', 'N', 'T', '\n']⟩] ∧
      setdbactQds Sed.simple 3 ['N', 'T'] station.files ≠
        (station.points.map (Point.marked 3 ['N', 'T'])).map Point.file := by
  decide

end Frame

end IecUtils.Scripts.Quality
