/- Module: IecUtils/Queue/Responses
   source: the response loops of main and flush_queue in quemngr/quemngr.c, the main loop of scripts/asdusend
   digest: What fscanf makes of the lines asdusend prints, however they are split over the reads. -/

import IecUtils.Foundation.Scan
import IecUtils.Queue.Files

set_option autoImplicit false
set_option relaxedAutoImplicit false

namespace IecUtils.Queue.Responses

open IecUtils.Foundation.Scan
open IecUtils.Queue.Files

section Lines

/-- A line of `asdusend`: the file name was read, or `sendfile` ended with a status. With
status 3 it prints nothing. -/
inductive Line where
  | confirm (inode : Ino)
  | final (inode : Ino) (status : UInt8) (printed : status ≠ 3)

def confirmText : List Char := "Ok".toList
def fail : List Char := "Transfer failed".toList

/-- `SUCCSESS`, which is not the variable that was set. -/
def succsess : List Char := []

def Line.inode : Line → Ino
  | .confirm inode => inode
  | .final inode _ _ => inode

def Line.code : Line → Int
  | .confirm _ => 1
  | .final _ status _ => status.toNat

def Line.text : Line → List Char
  | .confirm _ => confirmText
  | .final _ status _ => if status = 0 then succsess else fail

def Line.chars (l : Line) : List Char :=
  decimal (ld l.inode) ++ ' ' :: (decimal l.code ++ ' ' :: (l.text ++ ['\n']))

end Lines

section Fscanf

/-- The variables `fscanf` assigns before it returns something else than EOF. -/
structure Assigned where
  retinode : Option Ino
  code : Option Int
  deriving DecidableEq

def notNewline (c : Char) : Bool := c ≠ '\n'

/-- `fscanf(pipestream, "%ld %d %[^\n]", ...)`: EOF, or the variables it assigned. A read that
finds nothing ends the call. -/
def fscanf (s : Stream) : Option Assigned × Stream :=
  match scanInt s with
  | (.error .input, s) => (none, s)
  | (.error .matching, s) => (some ⟨none, none⟩, s)
  | (.ok long, s) =>
      let retinode := UInt64.ofInt long
      match scanInt s with
      | (.error _, s) => (some ⟨some retinode, none⟩, s)
      | (.ok code, s) =>
          let s := skipSpace s
          if s.buffer = [] then (some ⟨some retinode, some code⟩, s)
          else (some ⟨some retinode, some code⟩, (scanSet notNewline s).2)

/-- The calls of `check_response`: the loops run until EOF, and again when there is more. -/
def responses : Nat → Stream → List Assigned
  | 0, _ => []
  | fuel + 1, s =>
      match fscanf s with
      | (none, s) => if s.reads = [] then [] else responses fuel s
      | (some call, s) => call :: responses fuel s

def opened (reads : List (List Line)) : Stream := ⟨[], reads.map (·.flatMap Line.chars)⟩

def Line.call (l : Line) : Assigned := ⟨some l.inode, some l.code⟩

end Fscanf

section Abstraction

/-- The line that is scanned next, what is behind it in its read, and the later reads;
none if the next read finds nothing. -/
def front : List Line → List (List Line) → Option (Line × List Line × List (List Line))
  | l :: rest, reads => some (l, rest, reads)
  | [], (l :: rest) :: reads => some (l, rest, reads)
  | [], _ => none

/-- `fscanf` on lines: without a text the line behind is taken for it. -/
def next (pending : List Line) (reads : List (List Line)) :
    Option Line × List Line × List (List Line) :=
  match front pending reads with
  | none => (none, [], reads.tail)
  | some (l, rest, reads) =>
      if l.text ≠ [] then (some l, rest, reads)
      else
        match front rest reads with
        | none => (some l, [], reads.tail)
        | some (_, rest, reads) => (some l, rest, reads)

/-- The lines for which `check_response` is called. -/
def heard : Nat → List Line → List (List Line) → List Line
  | 0, _, _ => []
  | fuel + 1, pending, reads =>
      match next pending reads with
      | (none, pending, reads) => if reads = [] then [] else heard fuel pending reads
      | (some l, pending, reads) => l :: heard fuel pending reads

/-- The stream holds the pending lines behind some white space. -/
structure Represents (s : Stream) (pending : List Line) (reads : List (List Line)) : Prop where
  buffer : ∃ space, (∀ c ∈ space, isSpace c = true) ∧ s.buffer = space ++ pending.flatMap Line.chars
  reads : s.reads = reads.map (·.flatMap Line.chars)

theorem Line.chars_head (l : Line) (more : List Char) :
    ∃ c cs, l.chars ++ more = c :: cs ∧ isSpace c = false := by
  obtain ⟨c, cs, start, visible⟩ := decimal_head (ld l.inode)
  exact ⟨c, _, by rw [Line.chars, start]; rfl, visible⟩

private theorem flatMap_ne_nil (l : Line) (rest : List Line) :
    (l :: rest).flatMap Line.chars ≠ [] := by
  obtain ⟨c, cs, start, _⟩ := l.chars_head (rest.flatMap Line.chars)
  rw [List.flatMap_cons, start]
  exact List.cons_ne_nil _ _

theorem skipSpace_line {space : List Char} (all : ∀ c ∈ space, isSpace c = true) (l : Line)
    (rest : List Line) (reads : List (List Char)) :
    takeSpan isSpace (space ++ (l :: rest).flatMap Line.chars) reads =
      (space, ⟨(l :: rest).flatMap Line.chars, reads⟩) := by
  obtain ⟨c, cs, start, visible⟩ := l.chars_head (rest.flatMap Line.chars)
  rw [List.flatMap_cons, start]
  exact takeSpan_stop all visible reads

theorem skipSpace_some {s : Stream} {pending rest : List Line} {reads later : List (List Line)}
    {l : Line} (h : Represents s pending reads)
    (first : front pending reads = some (l, rest, later)) :
    skipSpace s = ⟨(l :: rest).flatMap Line.chars, later.map (·.flatMap Line.chars)⟩ := by
  obtain ⟨⟨space, all, buffer⟩, coming⟩ := h
  unfold skipSpace
  rw [buffer, coming]
  cases pending with
  | cons l' rest' =>
    obtain ⟨rfl, rfl, rfl⟩ : l' = l ∧ rest' = rest ∧ reads = later := by
      simpa [front] using first
    rw [skipSpace_line all]
  | nil =>
    match reads, first with
    | (l' :: rest') :: reads, first =>
      obtain ⟨rfl, rfl, rfl⟩ : l' = l ∧ rest' = rest ∧ reads = later := by
        simpa [front] using first
      rw [List.flatMap_nil, List.append_nil, List.map_cons,
        takeSpan_refill all (flatMap_ne_nil l' rest')]
      have none : ∀ c ∈ ([] : List Char), isSpace c = true :=
        fun c member => absurd member List.not_mem_nil
      have found := skipSpace_line none l' rest' (reads.map (·.flatMap Line.chars))
      rw [List.nil_append] at found
      rw [found]

theorem skipSpace_none {s : Stream} {pending : List Line} {reads : List (List Line)}
    (h : Represents s pending reads) (nothing : front pending reads = none) :
    skipSpace s = ⟨[], reads.tail.map (·.flatMap Line.chars)⟩ := by
  obtain ⟨⟨space, all, buffer⟩, coming⟩ := h
  cases pending with
  | cons l rest => cases nothing
  | nil =>
    have dry : (reads.map (·.flatMap Line.chars)).head?.getD [] = [] := by
      match reads, nothing with
      | [], _ => rfl
      | [] :: reads, _ => rfl
    unfold skipSpace
    rw [buffer, coming, List.flatMap_nil, List.append_nil, takeSpan_dry all dry, List.map_tail]

theorem ofInt_ld (i : Ino) : UInt64.ofInt (ld i) = i := by
  have range := i.toNat_lt
  rw [← UInt64.toNat_inj, UInt64.ofInt, UInt64.toNat_ofNat', ld]
  split <;> omega

theorem Line.text_start (l : Line) (some : l.text ≠ []) :
    ∃ c cs, l.text = c :: cs ∧ isSpace c = false := by
  cases l with
  | confirm inode => exact ⟨'O', _, rfl, by decide⟩
  | final inode status printed =>
    unfold Line.text at some ⊢
    dsimp only at some ⊢
    split
    · rename_i delivered
      rw [if_pos delivered] at some
      exact absurd rfl some
    · exact ⟨'T', _, rfl, by decide⟩

private theorem text_notNewline (l : Line) : ∀ c ∈ l.text, notNewline c = true := by
  have texts : (∀ c ∈ confirmText, notNewline c = true) ∧ (∀ c ∈ fail, notNewline c = true) :=
    ⟨List.all_eq_true.mp rfl, List.all_eq_true.mp rfl⟩
  cases l with
  | confirm inode => exact texts.1
  | final inode status printed =>
    unfold Line.text
    dsimp only
    split
    · exact fun c member => absurd member List.not_mem_nil
    · exact texts.2

private theorem decimal_notNewline (v : Int) : ∀ c ∈ decimal v, notNewline c = true := by
  have digits (c : Char) (member : c ∈ Nat.toDigits 10 v.natAbs) : notNewline c = true := by
    have range := digit_range (toDigits_isDigit v.natAbs c member)
    have apart : c ≠ '\n' := by
      rintro rfl
      exact absurd range.1 (by decide)
    simp [notNewline, apart]
  unfold decimal
  split
  · intro c member
    rcases List.mem_cons.mp member with rfl | later
    · rfl
    · exact digits c later
  · exact digits

def Line.body (l : Line) : List Char :=
  decimal (ld l.inode) ++ ' ' :: (decimal l.code ++ ' ' :: l.text)

theorem Line.chars_eq (l : Line) : l.chars = l.body ++ ['\n'] := by
  simp [Line.chars, Line.body]

private theorem body_notNewline (l : Line) : ∀ c ∈ l.body, notNewline c = true := by
  intro c member
  simp only [Line.body, List.mem_append, List.mem_cons] at member
  rcases member with first | rfl | second | rfl | third
  · exact decimal_notNewline _ c first
  · rfl
  · exact decimal_notNewline _ c second
  · rfl
  · exact text_notNewline l c third

private theorem scanSet_line {text more : List Char} (all : ∀ c ∈ text, notNewline c = true)
    (some : text ≠ []) (reads : List (List Char)) :
    (scanSet notNewline ⟨text ++ '\n' :: more, reads⟩).2 = ⟨'\n' :: more, reads⟩ := by
  unfold scanSet
  rw [takeSpan_stop all (by rfl)]
  simp [some]

private theorem scan_numbers {s : Stream} {l : Line} {rest : List Line} {reads : List (List Char)}
    (start : skipSpace s = ⟨(l :: rest).flatMap Line.chars, reads⟩) :
    ∃ between, scanInt s = (.ok (ld l.inode), between) ∧
      scanInt between =
        (.ok l.code, ⟨' ' :: (l.text ++ '\n' :: rest.flatMap Line.chars), reads⟩) := by
  have shape : (l :: rest).flatMap Line.chars = decimal (ld l.inode) ++ ' ' ::
      (decimal l.code ++ ' ' :: (l.text ++ '\n' :: rest.flatMap Line.chars)) := by
    simp [Line.chars]
  rw [shape] at start
  refine ⟨_, scanInt_decimal start (by decide), ?_⟩
  obtain ⟨c, cs, digits, visible⟩ := decimal_head l.code
  refine scanInt_decimal ?_ (by decide)
  rw [digits]
  exact skipSpace_one (by decide) visible reads

theorem fscanf_next {s : Stream} {pending : List Line} {reads : List (List Line)}
    (h : Represents s pending reads) :
    (fscanf s).1 = (next pending reads).1.map Line.call ∧
      Represents (fscanf s).2 (next pending reads).2.1 (next pending reads).2.2 := by
  unfold next
  cases first : front pending reads with
  | none =>
    have skipped := skipSpace_none h first
    have ended : scanInt s = (.error .input, ⟨[], reads.tail.map (·.flatMap Line.chars)⟩) := by
      unfold scanInt
      rw [skipped]
      rfl
    unfold fscanf
    rw [ended]
    exact ⟨rfl, ⟨[], fun c member => absurd member List.not_mem_nil, rfl⟩, rfl⟩
  | some found =>
    obtain ⟨l, rest, later⟩ := found
    obtain ⟨between, number, code⟩ := scan_numbers (skipSpace_some h first)
    unfold fscanf
    rw [number]
    dsimp only
    rw [code, ofInt_ld]
    dsimp only
    by_cases empty : l.text = []
    · -- nothing stops the white space of the format before the next line
      have after : Represents ⟨' ' :: (l.text ++ '\n' :: rest.flatMap Line.chars),
          later.map (·.flatMap Line.chars)⟩ rest later := by
        refine ⟨⟨[' ', '\n'], List.all_eq_true.mp rfl, ?_⟩, rfl⟩
        rw [empty]
        rfl
      rw [if_neg (not_not.mpr empty)]
      cases second : front rest later with
      | none =>
        rw [skipSpace_none after second]
        exact ⟨rfl, ⟨[], fun c member => absurd member List.not_mem_nil, rfl⟩, rfl⟩
      | some swallowed =>
        obtain ⟨l', rest', later'⟩ := swallowed
        rw [skipSpace_some after second, if_neg (flatMap_ne_nil l' rest')]
        have shape : (l' :: rest').flatMap Line.chars =
            l'.body ++ '\n' :: rest'.flatMap Line.chars := by
          rw [List.flatMap_cons, Line.chars_eq, List.append_assoc]
          rfl
        rw [shape, scanSet_line (body_notNewline l') (by simp [Line.body])]
        exact ⟨rfl, ⟨['\n'], List.all_eq_true.mp rfl, rfl⟩, rfl⟩
    · obtain ⟨c, cs, text, visible⟩ := l.text_start empty
      have skipped : skipSpace ⟨' ' :: (l.text ++ '\n' :: rest.flatMap Line.chars),
          later.map (·.flatMap Line.chars)⟩ =
          ⟨l.text ++ '\n' :: rest.flatMap Line.chars, later.map (·.flatMap Line.chars)⟩ := by
        rw [text]
        exact skipSpace_one (by decide) visible _
      rw [skipped, if_pos empty, if_neg (by simp), scanSet_line (text_notNewline l) empty]
      exact ⟨rfl, ⟨['\n'], List.all_eq_true.mp rfl, rfl⟩, rfl⟩

theorem responses_heard {s : Stream} {pending : List Line} {reads : List (List Line)}
    (h : Represents s pending reads) (fuel : Nat) :
    responses fuel s = (heard fuel pending reads).map Line.call := by
  induction fuel generalizing s pending reads with
  | zero => rfl
  | succ fuel ih =>
    obtain ⟨call, after⟩ := fscanf_next h
    unfold responses heard
    generalize fscanf s = result at call after ⊢
    generalize next pending reads = abstract at call after ⊢
    obtain ⟨got, s'⟩ := result
    obtain ⟨line, pending', reads'⟩ := abstract
    dsimp only at call after ⊢
    subst call
    cases line with
    | some l => exact congrArg (l.call :: ·) (ih after)
    | none =>
      have last : s'.reads = [] ↔ reads' = [] := by
        rw [after.reads]
        exact List.map_eq_nil_iff
      dsimp only [Option.map_none]
      by_cases dry : reads' = []
      · rw [if_pos dry, if_pos (last.mpr dry)]
        rfl
      · rw [if_neg dry, if_neg fun none => dry (last.mp none)]
        exact ih after

end Abstraction

section Separation

variable {pending rest : List Line} {reads later : List (List Line)} {l : Line}

theorem front_some (first : front pending reads = some (l, rest, later)) :
    pending ++ reads.flatten = l :: (rest ++ later.flatten) ∧ later.length ≤ reads.length := by
  cases pending with
  | cons l' rest' =>
    obtain ⟨rfl, rfl, rfl⟩ : l' = l ∧ rest' = rest ∧ reads = later := by
      simpa [front] using first
    exact ⟨rfl, Nat.le_refl _⟩
  | nil =>
    match reads, first with
    | (l' :: rest') :: reads, first =>
      obtain ⟨rfl, rfl, rfl⟩ : l' = l ∧ rest' = rest ∧ reads = later := by
        simpa [front] using first
      exact ⟨rfl, Nat.le_succ _⟩

theorem front_none (nothing : front pending reads = none) :
    pending = [] ∧ reads.head?.getD [] = [] ∧ reads.flatten = reads.tail.flatten := by
  cases pending with
  | cons l rest => cases nothing
  | nil =>
    match reads, nothing with
    | [], _ => exact ⟨rfl, rfl, rfl⟩
    | [] :: reads, _ => exact ⟨rfl, rfl, rfl⟩

private theorem heard_nothing (fuel : Nat) (nothing : front pending reads = none) :
    heard (fuel + 1) pending reads = if reads.tail = [] then [] else heard fuel [] reads.tail := by
  rw [heard, next, nothing]

private theorem heard_text (fuel : Nat) (first : front pending reads = some (l, rest, later))
    (text : l.text ≠ []) : heard (fuel + 1) pending reads = l :: heard fuel rest later := by
  simp only [heard, next, first, if_pos text]

private theorem heard_alone (fuel : Nat) (first : front pending reads = some (l, rest, later))
    (empty : l.text = []) (nothing : front rest later = none) :
    heard (fuel + 1) pending reads = l :: heard fuel [] later.tail := by
  simp only [heard, next, first, if_neg (not_not.mpr empty), nothing]

private theorem heard_swallowed (fuel : Nat) (first : front pending reads = some (l, rest, later))
    (empty : l.text = []) {l' : Line} {rest' : List Line} {later' : List (List Line)}
    (second : front rest later = some (l', rest', later')) :
    heard (fuel + 1) pending reads = l :: heard fuel rest' later' := by
  simp only [heard, next, first, if_neg (not_not.mpr empty), second]

theorem heard_sublist (fuel : Nat) (pending : List Line) (reads : List (List Line)) :
    (heard fuel pending reads).Sublist (pending ++ reads.flatten) := by
  induction fuel generalizing pending reads with
  | zero => exact List.nil_sublist _
  | succ fuel ih =>
    cases first : front pending reads with
    | none =>
      obtain ⟨rfl, _, same⟩ := front_none first
      rw [heard_nothing fuel first]
      split
      · exact List.nil_sublist _
      · rw [same]
        exact ih [] reads.tail
    | some found =>
      obtain ⟨l, rest, later⟩ := found
      rw [(front_some first).1]
      by_cases empty : l.text = []
      · cases second : front rest later with
        | none =>
          obtain ⟨rfl, _, same⟩ := front_none second
          rw [heard_alone fuel first empty second, same]
          exact (ih [] later.tail).cons_cons l
        | some swallowed =>
          obtain ⟨l', rest', later'⟩ := swallowed
          rw [heard_swallowed fuel first empty second, (front_some second).1]
          exact ((ih rest' later').cons l').cons_cons l
      · rw [heard_text fuel first empty]
        exact (ih rest later).cons_cons l

/-- Each line with status 0 is the last of its read, and the read after it finds nothing. -/
def Separated : List (List Line) → Prop
  | [] => True
  | r :: later => (∀ l ∈ r.dropLast, l.code ≠ 0) ∧
      (∀ l ∈ r.getLast?, l.code = 0 → later.head?.getD [] = []) ∧ Separated later

theorem Line.text_empty_iff (l : Line) : l.text = [] ↔ l.code = 0 := by
  cases l with
  | confirm inode =>
    have text : confirmText ≠ [] := by decide
    have code : (1 : Int) ≠ 0 := by decide
    exact iff_of_false text code
  | final inode status printed =>
    have zero : ((status.toNat : Int) = 0) ↔ status = 0 := by
      rw [Int.natCast_eq_zero, ← UInt8.toNat_inj]
      rfl
    unfold Line.text Line.code
    dsimp only
    rw [zero]
    split
    · exact iff_of_true rfl ‹_›
    · exact iff_of_false (by decide) ‹_›

theorem separated_nothing (nothing : reads.head?.getD [] = []) :
    Separated reads ↔ Separated reads.tail := by
  cases reads with
  | nil => rfl
  | cons r later =>
    have empty : r = [] := nothing
    simp [Separated, empty]

theorem separated_empty : Separated ([] :: reads) ↔ Separated reads := by
  simp [Separated]

theorem separated_text (text : l.code ≠ 0) :
    Separated ((l :: rest) :: later) ↔ Separated (rest :: later) := by
  cases rest with
  | nil => simp [Separated, text]
  | cons l' rest => simp [Separated, text]

theorem separated_front (first : front pending reads = some (l, rest, later)) :
    Separated (pending :: reads) ↔ Separated ((l :: rest) :: later) := by
  cases pending with
  | cons l' rest' =>
    obtain ⟨rfl, rfl, rfl⟩ : l' = l ∧ rest' = rest ∧ reads = later := by
      simpa [front] using first
    rfl
  | nil =>
    match reads, first with
    | (l' :: rest') :: reads, first =>
      obtain ⟨rfl, rfl, rfl⟩ : l' = l ∧ rest' = rest ∧ reads = later := by
        simpa [front] using first
      exact separated_empty

theorem not_separated {l' : Line} {rest' : List Line} {later' : List (List Line)} (zero : l.code = 0)
    (second : front rest later = some (l', rest', later')) :
    ¬ Separated ((l :: rest) :: later) := by
  rintro ⟨before, last, _⟩
  cases rest with
  | cons l'' rest =>
    exact before l (by simp) zero
  | nil =>
    match later, second with
    | (l'' :: rest'') :: later, _ =>
      have none := last l (by simp) zero
      cases none

/-- With fuel for every read and every line, all lines are heard exactly if they are
separated. -/
theorem heard_iff (fuel : Nat) (pending : List Line) (reads : List (List Line))
    (enough : (pending ++ reads.flatten).length + reads.length < fuel) :
    heard fuel pending reads = pending ++ reads.flatten ↔ Separated (pending :: reads) := by
  induction fuel generalizing pending reads with
  | zero => exact absurd enough (Nat.not_lt_zero _)
  | succ fuel ih =>
    cases first : front pending reads with
    | none =>
      obtain ⟨rfl, nothing, same⟩ := front_none first
      have step : Separated ([] :: reads) ↔ Separated ([] :: reads.tail) := by
        rw [separated_empty, separated_empty, separated_nothing nothing]
      rw [heard_nothing fuel first, step, List.nil_append, same]
      by_cases dry : reads.tail = []
      · rw [if_pos dry, dry]
        exact iff_of_true rfl (separated_empty.mpr trivial)
      · have one : reads.length = reads.tail.length + 1 := by
          cases reads with
          | nil => exact absurd rfl dry
          | cons r later => rfl
        rw [List.nil_append, same] at enough
        rw [if_neg dry]
        exact ih [] reads.tail (by rw [List.nil_append]; omega)
    | some found =>
      obtain ⟨l, rest, later⟩ := found
      obtain ⟨lines, fewer⟩ := front_some first
      rw [lines, List.length_cons] at enough
      rw [separated_front first, lines]
      by_cases empty : l.text = []
      · have zero := l.text_empty_iff.mp empty
        cases second : front rest later with
        | none =>
          obtain ⟨rfl, nothing, same⟩ := front_none second
          have step : Separated ([l] :: later) ↔ Separated ([] :: later.tail) := by
            rw [separated_empty, ← separated_nothing nothing]
            simp [Separated, nothing]
          have shorter : later.tail.length ≤ later.length := by
            rw [List.length_tail]
            exact Nat.sub_le _ _
          rw [List.nil_append, same] at enough
          rw [heard_alone fuel first empty second, same, step,
            ← ih [] later.tail (by rw [List.nil_append]; omega)]
          exact List.cons_inj_right l
        | some swallowed =>
          obtain ⟨l', rest', later'⟩ := swallowed
          refine iff_of_false ?_ (not_separated zero second)
          intro all
          have length := congrArg List.length all
          rw [heard_swallowed fuel first empty second, (front_some second).1, List.length_cons,
            List.length_cons, List.length_cons] at length
          have fewer := (heard_sublist fuel rest' later').length_le
          omega
      · have text : l.code ≠ 0 := fun zero => empty (l.text_empty_iff.mpr zero)
        rw [heard_text fuel first empty, separated_text text, ← ih rest later (by omega)]
        exact List.cons_inj_right l

/-- However the lines `asdusend` prints are split over the reads: `check_response` is called
once for each line, in order and with its inode and code, exactly if each line with status
0 is the last of its read and the next read finds nothing. -/
theorem responses_once_iff (reads : List (List Line)) (fuel : Nat)
    (enough : reads.flatten.length + reads.length < fuel) :
    responses fuel (opened reads) = reads.flatten.map Line.call ↔ Separated reads := by
  have start : Represents (opened reads) [] reads :=
    ⟨⟨[], fun c member => absurd member List.not_mem_nil, rfl⟩, rfl⟩
  have whole := heard_iff fuel [] reads (by rwa [List.nil_append])
  rw [responses_heard start, ← separated_empty, ← whole, List.nil_append]
  constructor
  · intro same
    have length := congrArg List.length same
    rw [List.length_map, List.length_map] at length
    have part := heard_sublist fuel [] reads
    exact part.eq_of_length length
  · intro same
    rw [same]

def together : List (List Line) :=
  [[.confirm 5], [.final 5 0 (by decide), .confirm 6], [], [.final 6 2 (by decide)]]

/-- The same lines, each of them read before the next one is there. -/
def apart : List (List Line) :=
  [[.confirm 5], [.final 5 0 (by decide)], [], [.confirm 6], [], [.final 6 2 (by decide)]]

theorem apart_once : responses 11 (opened apart) = apart.flatten.map Line.call :=
  (responses_once_iff apart 11 (by decide)).mpr (by simp [apart, Separated, Line.code])

/-- The confirmation of the second message is taken for the text of the first one. -/
theorem together_lost :
    responses 9 (opened together) =
      [⟨some 5, some 1⟩, ⟨some 5, some 0⟩, ⟨some 6, some 2⟩] ∧
      responses 9 (opened together) ≠ together.flatten.map Line.call := by
  have heard : responses 9 (opened together) =
      [⟨some 5, some 1⟩, ⟨some 5, some 0⟩, ⟨some 6, some 2⟩] := by
    decide
  refine ⟨heard, ?_⟩
  rw [heard]
  decide

end Separation

end IecUtils.Queue.Responses
