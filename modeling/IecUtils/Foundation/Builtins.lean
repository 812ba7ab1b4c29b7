/- Module: IecUtils/Foundation/Builtins
   source: none (echo and read as the shell dash has them, and the words of an unquoted variable)
   digest: Both take backslashes out, and read blanks at the ends; which texts they leave alone. -/

import IecUtils.Foundation.Lines
import IecUtils.Foundation.Words

set_option autoImplicit false
set_option relaxedAutoImplicit false

namespace IecUtils.Foundation.Builtins

open IecUtils.Foundation
open IecUtils.Foundation.Words

section Expansion

def isBlank (c : Char) : Bool := c = ' ' || c = '\t' || c = '\n'

def isPattern (c : Char) : Bool := c = '*' || c = '?' || c = '['

/-- Pathname expansion in some directory: a word without such characters is no pattern, and one
that no file matches is left as it is. -/
structure Pathnames where
  expand : List Char → List (List Char)
  expand_plain : ∀ w, (∀ c ∈ w, isPattern c = false) → expand w = [w]

def Pathnames.none : Pathnames := ⟨fun w => [w], fun _ _ => rfl⟩

/-- Whether a word is matched by a path: `*` and `?` stand for characters other than slashes. A
bracket is taken as it stands. -/
def globs : List Char → List Char → Bool
  | [], cs => cs.isEmpty
  | a :: w, cs =>
      if a = '*' then
        (List.range ((cs.takeWhile fun c => c ≠ '/').length + 1)).any fun i => globs w (cs.drop i)
      else
        match cs with
        | [] => false
        | c :: cs => if a = '?' then c ≠ '/' && globs w cs else a = c && globs w cs

theorem eq_of_globs {w cs : List Char} (plain : ∀ c ∈ w, isPattern c = false)
    (found : globs w cs = true) : w = cs := by
  induction w generalizing cs with
  | nil => exact (List.isEmpty_iff.mp found).symm
  | cons a w ih =>
    obtain ⟨now, later⟩ := List.forall_mem_cons.mp plain
    have ⟨⟨star, question⟩, _⟩ : (a ≠ '*' ∧ a ≠ '?') ∧ a ≠ '[' := by simpa [isPattern] using now
    cases cs with
    | nil => simp [globs, star] at found
    | cons c cs =>
      rw [globs, if_neg star, if_neg question, Bool.and_eq_true, decide_eq_true_eq] at found
      rw [found.1, ih later found.2]

def filled (w : List Char) : List Char := w.map fun c => if isPattern c then 'x' else c

theorem globs_filled {w : List Char} (noBracket : '[' ∉ w) : globs w (filled w) = true := by
  induction w with
  | nil => rfl
  | cons a w ih =>
    obtain ⟨now, later⟩ := not_or.mp (List.mem_cons.not.mp noBracket)
    have next := ih later
    rw [filled, List.map_cons, globs]
    split
    · rename_i star
      subst star
      rw [List.any_eq_true]
      refine ⟨1, ?_, next⟩
      rw [List.mem_range]
      exact Nat.succ_lt_succ (List.length_pos_iff.mpr (by simp [isPattern]))
    · rename_i other
      split
      · rename_i question
        subst question
        rw [Bool.and_eq_true]
        exact ⟨by decide, next⟩
      · rename_i plain
        have literal : isPattern a = false := by simp [isPattern, other, plain, Ne.symm now]
        rw [literal, Bool.and_eq_true]
        exact ⟨decide_eq_true rfl, next⟩

/-- A directory with nothing but one file. -/
def Pathnames.single (path : List Char) : Pathnames where
  expand w := if globs w path then [path] else [w]
  expand_plain := by
    intro w plain
    split
    · rename_i found
      rw [eq_of_globs plain found]
    · rfl

/-- What `$var` becomes outside of quotes. -/
def Pathnames.unquoted (files : Pathnames) (value : List Char) : List (List Char) :=
  (words isBlank value).flatMap files.expand

theorem Pathnames.unquoted_eq {files : Pathnames} {value : List Char}
    (left : ∀ w ∈ words isBlank value, files.expand w = [w]) :
    files.unquoted value = words isBlank value := by
  rw [unquoted, List.flatMap_congr left, List.flatMap_singleton']

end Expansion

section Echo

/-- Where `echo` is: in plain text, behind a backslash, or in an octal number that up to `left`
digits can follow. -/
inductive Escape where
  | plain
  | backslash
  | octal (value left : Nat)

def isOctal (c : Char) : Bool := '0' ≤ c && c ≤ '7'

def control : Char → Option Char
  | '\\' => some '\\'
  | 'a' => some (Char.ofNat 7)
  | 'b' => some (Char.ofNat 8)
  | 'e' => some (Char.ofNat 27)
  | 't' => some (Char.ofNat 9)
  | 'n' => some (Char.ofNat 10)
  | 'v' => some (Char.ofNat 11)
  | 'f' => some (Char.ofNat 12)
  | 'r' => some (Char.ofNat 13)
  | _ => none

def isSpecial (c : Char) : Bool := c = 'c' || isOctal c || (control c).isSome

/-- A text as `echo` prints it, with an `ending` unless `\c` cuts it off. -/
def unescape (ending : List Char) : Escape → List Char → List Char
  | .plain, [] => ending
  | .plain, c :: cs =>
      if c = '\\' then unescape ending .backslash cs else c :: unescape ending .plain cs
  | .backslash, [] => '\\' :: ending
  | .backslash, c :: cs =>
      if c = 'c' then []
      else if isOctal c then
        unescape ending (.octal (c.toNat - 48) (if c = '0' then 3 else 2)) cs
      else
        match control c with
        | some d => d :: unescape ending .plain cs
        | none => '\\' :: c :: unescape ending .plain cs
  | .octal value _, [] => Char.ofNat (value % 256) :: ending
  | .octal value left, c :: cs =>
      if 0 < left && isOctal c then
        unescape ending (.octal (8 * value + (c.toNat - 48)) (left - 1)) cs
      else
        Char.ofNat (value % 256) ::
          if c = '\\' then unescape ending .backslash cs else c :: unescape ending .plain cs

def echo : List (List Char) → List Char
  | ['-', 'n'] :: args => unescape [] .plain ([' '].intercalate args)
  | args => unescape ['\n'] .plain ([' '].intercalate args)

example : echo ["a\\tb".toList, "\\101\\q".toList] = "a\tb A\\q\n".toList := by decide
example : echo ["a\\cb".toList] = ['a'] := by decide

variable {ending front back cs : List Char}

theorem echo_of_head {args : List (List Char)} (newline : args.head? ≠ some ['-', 'n']) :
    echo args = unescape ['\n'] .plain ([' '].intercalate args) := by
  unfold echo
  split
  · exact absurd rfl newline
  · rfl

theorem echo_words {value : List Char} (first : (rejoin isBlank ' ' value).head? ≠ some '-') :
    echo (words isBlank value) = unescape ['\n'] .plain (rejoin isBlank ' ' value) := by
  apply echo_of_head
  intro option
  obtain ⟨ws, eq⟩ := List.head?_eq_some_iff.mp option
  apply first
  rw [rejoin, eq, head?_intercalate (List.cons_ne_nil _ _)]
  rfl

theorem unescape_append (plain : '\\' ∉ front) :
    unescape ending .plain (front ++ cs) = front ++ unescape ending .plain cs := by
  induction front with
  | nil => rfl
  | cons c front ih =>
    obtain ⟨now, later⟩ := not_or.mp (List.mem_cons.not.mp plain)
    rw [List.cons_append, unescape, if_neg (Ne.symm now), ih later, List.cons_append]

theorem unescape_plain (plain : '\\' ∉ cs) : unescape ending .plain cs = cs ++ ending := by
  have whole : unescape ending .plain (cs ++ []) = cs ++ unescape ending .plain [] :=
    unescape_append plain
  rwa [List.append_nil] at whole

theorem echo_plain (plain : '\\' ∉ cs) (newline : cs ≠ ['-', 'n']) :
    echo [cs] = cs ++ ['\n'] := by
  rw [echo_of_head (by simpa using newline), List.intercalate_singleton, unescape_plain plain]

theorem echo_unquoted {files : Pathnames} {value : List Char}
    (spaced : rejoin isBlank ' ' value = value) (first : value.head? ≠ some '-')
    (plain : '\\' ∉ value) (left : ∀ w ∈ words isBlank value, files.expand w = [w]) :
    echo (files.unquoted value) = value ++ ['\n'] := by
  rw [Pathnames.unquoted_eq left, echo_words (by rwa [spaced]), spaced, unescape_plain plain]

theorem exists_expanded {value : List Char} (spaced : rejoin isBlank ' ' value = value)
    (first : value.head? ≠ some '-') (plain : '\\' ∉ value) (noBracket : '[' ∉ value) {c : Char}
    (inside : c ∈ value) (pattern : isPattern c = true) :
    ∃ path, echo ((Pathnames.single path).unquoted value) ≠ value ++ ['\n'] := by
  obtain ⟨w, among, deeper⟩ : ∃ w ∈ words isBlank value, c ∈ w := by
    rw [← spaced] at inside
    refine (mem_intercalate inside).resolve_left ?_
    rintro rfl
    cases pattern
  have visible : ∀ v ∈ words isBlank value, v ≠ [] ∧ ∀ d ∈ v, isBlank d = false :=
    wordsFrom_plain nofun value
  have noBracket' : '[' ∉ w := fun bad => noBracket (subset_of_mem_words among bad)
  refine ⟨filled w, fun printed => ?_⟩
  -- the words that are printed
  let swap (v : List Char) : List Char := if globs v (filled w) then filled w else v
  have expanded :
      (Pathnames.single (filled w)).unquoted value = (words isBlank value).map swap := by
    have single (v : List Char) : (Pathnames.single (filled w)).expand v = [swap v] := by
      change (if globs v (filled w) then [filled w] else [v]) = [swap v]
      split <;> simp_all [swap]
    rw [Pathnames.unquoted, List.flatMap_congr fun v _ => single v, ← List.map_eq_flatMap]
  have filled_char (d : Char) (member : d ∈ filled w) : d = 'x' ∨ d ∈ w ∧ isPattern d = false := by
    obtain ⟨e, found, rfl⟩ := List.mem_map.mp member
    split
    · exact .inl rfl
    · rename_i other
      exact .inr ⟨found, (Bool.not_eq_true _).mp other⟩
  have swapped : ∀ v ∈ (words isBlank value).map swap,
      v ≠ [] ∧ ∀ d ∈ v, isBlank d = false ∧ d ≠ '\\' := by
    intro v member
    obtain ⟨u, found, rfl⟩ := List.mem_map.mp member
    have own (u : List Char) (found : u ∈ words isBlank value) (d : Char) (member : d ∈ u) :
        isBlank d = false ∧ d ≠ '\\' :=
      ⟨(visible u found).2 d member, fun bad => plain (bad ▸ subset_of_mem_words found member)⟩
    by_cases matched : globs u (filled w) = true
    · rw [show swap u = filled w from if_pos matched]
      refine ⟨fun none => (visible w among).1 (List.map_eq_nil_iff.mp none), fun d member => ?_⟩
      rcases filled_char d member with rfl | ⟨old, _⟩
      · decide
      · exact own w among d old
    · rw [show swap u = u from if_neg matched]
      exact ⟨(visible u found).1, own u found⟩
  have option : ((words isBlank value).map swap).head? ≠ some ['-', 'n'] := by
    rw [List.head?_map]
    intro option
    obtain ⟨u, isHead, same⟩ := Option.map_eq_some_iff.mp option
    by_cases matched : globs u (filled w) = true
    · have fill : filled w = ['-', 'n'] := (if_pos matched : swap u = filled w).symm.trans same
      have new : 'x' ∈ filled w := List.mem_map.mpr ⟨c, deeper, if_pos pattern⟩
      rw [fill] at new
      revert new
      decide
    · obtain rfl : u = ['-', 'n'] := (if_neg matched : swap u = u).symm.trans same
      obtain ⟨ws, eq⟩ := List.head?_eq_some_iff.mp isHead
      apply first
      rw [← spaced, rejoin, eq, head?_intercalate (List.cons_ne_nil _ _)]
      rfl
  rw [expanded, echo_of_head option, unescape_plain] at printed
  · have text := List.append_cancel_right printed
    have again : words isBlank ([' '].intercalate ((words isBlank value).map swap)) =
        (words isBlank value).map swap :=
      words_intercalate rfl fun v member =>
        ⟨(swapped v member).1, fun d inside => ((swapped v member).2 d inside).1⟩
    rw [text] at again
    have fixed : swap w = w := by
      have all : (words isBlank value).map swap = (words isBlank value).map id := by
        rw [← again, List.map_id]
      exact List.map_inj_left.mp all w among
    rw [show swap w = filled w from if_pos (globs_filled noBracket')] at fixed
    rcases filled_char c (by rw [fixed]; exact deeper) with rfl | ⟨_, other⟩
    · cases pattern
    · rw [pattern] at other
      cases other
  · intro bad
    rcases mem_intercalate bad with blank | ⟨v, member, inside⟩
    · cases blank
    · exact ((swapped v member).2 _ inside).2 rfl

theorem unescape_spec (ending cs : List Char) :
    ((∃ out, unescape ending .plain cs = out ++ ending ∧ out.length ≤ cs.length ∧
        (out.length = cs.length → out = cs)) ∨
      (unescape ending .plain cs).length + 2 ≤ cs.length) ∧
    ((∃ out, unescape ending .backslash cs = out ++ ending ∧ out.length ≤ cs.length + 1 ∧
        (out.length = cs.length + 1 → out = '\\' :: cs)) ∨
      (unescape ending .backslash cs).length + 1 ≤ cs.length) ∧
    ∀ value left,
      (∃ out, unescape ending (.octal value left) cs = out ++ ending ∧ out.length ≤ cs.length + 1) ∨
      (unescape ending (.octal value left) cs).length + 1 ≤ cs.length := by
  induction cs with
  | nil =>
    exact ⟨.inl ⟨[], rfl, Nat.le_refl _, fun _ => rfl⟩,
      .inl ⟨['\\'], rfl, Nat.le_refl _, fun _ => rfl⟩,
      fun value _ => .inl ⟨[Char.ofNat (value % 256)], rfl, Nat.le_refl _⟩⟩
  | cons c cs ih =>
    obtain ⟨inPlain, behind, inOctal⟩ := ih
    refine ⟨?_, ?_, fun value left => ?_⟩
    · rw [unescape]
      split
      · rename_i backslash
        subst backslash
        rcases behind with ⟨out, text, short, whole⟩ | cut
        · exact .inl ⟨out, text, short, whole⟩
        · exact .inr (by rw [List.length_cons]; omega)
      · rcases inPlain with ⟨out, text, short, whole⟩ | cut
        · refine .inl ⟨c :: out, by rw [text]; rfl, Nat.succ_le_succ short, fun same => ?_⟩
          rw [whole (Nat.succ.inj same)]
        · exact .inr (by rw [List.length_cons, List.length_cons]; omega)
    · rw [unescape]
      split
      · exact .inr (by simp)
      · split
        · rcases inOctal (c.toNat - 48) (if c = '0' then 3 else 2) with ⟨out, text, short⟩ | cut
          · refine .inl ⟨out, text, ?_, fun same => ?_⟩
            · rw [List.length_cons]
              omega
            · rw [List.length_cons] at same
              omega
          · exact .inr (by rw [List.length_cons]; omega)
        · split
          · rcases inPlain with ⟨out, text, short, _⟩ | cut
            · refine .inl ⟨_ :: out, by rw [text]; rfl, ?_, fun same => ?_⟩
              · rw [List.length_cons, List.length_cons]
                omega
              · rw [List.length_cons, List.length_cons] at same
                omega
            · exact .inr (by rw [List.length_cons, List.length_cons]; omega)
          · rcases inPlain with ⟨out, text, short, whole⟩ | cut
            · refine .inl ⟨'\\' :: c :: out, by rw [text]; rfl, ?_, fun same => ?_⟩
              · simp only [List.length_cons]
                omega
              · simp only [List.length_cons] at same
                rw [whole (by omega)]
            · exact .inr (by simp only [List.length_cons]; omega)
    · rw [unescape]
      split
      · rcases inOctal (8 * value + (c.toNat - 48)) (left - 1) with ⟨out, text, short⟩ | cut
        · exact .inl ⟨out, text, by rw [List.length_cons]; omega⟩
        · exact .inr (by rw [List.length_cons]; omega)
      · split
        · rcases behind with ⟨out, text, short, _⟩ | cut
          · refine .inl ⟨_ :: out, by rw [text]; rfl, ?_⟩
            rw [List.length_cons, List.length_cons]
            omega
          · exact .inr (by rw [List.length_cons, List.length_cons]; omega)
        · rcases inPlain with ⟨out, text, short, _⟩ | cut
          · refine .inl ⟨_ :: c :: out, by rw [text]; rfl, ?_⟩
            simp only [List.length_cons]
            omega
          · exact .inr (by simp only [List.length_cons]; omega)

theorem unescape_inert {b : Char} (plain : '\\' ∉ b :: back) (inert : isSpecial b = false)
    (state : Escape) (cs : List Char) :
    unescape ending state (cs ++ b :: back) = unescape (b :: back ++ ending) state cs := by
  have other : b ≠ '\\' := fun same => plain (same ▸ List.mem_cons_self)
  have tail : unescape ending .plain back = back ++ ending :=
    unescape_plain fun inside => plain (List.mem_cons_of_mem _ inside)
  simp only [isSpecial, Bool.or_eq_false_iff, decide_eq_false_iff_not] at inert
  obtain ⟨⟨notC, notOctal⟩, notControl⟩ := inert
  have noControl : control b = none := by simpa using notControl
  induction cs generalizing state with
  | nil =>
    cases state with
    | plain => exact unescape_plain plain
    | backslash =>
      have kept : unescape ending .backslash (b :: back) =
          '\\' :: b :: unescape ending .plain back := by
        rw [unescape, if_neg notC, notOctal, if_neg Bool.false_ne_true, noControl]
      rw [List.nil_append, kept, tail]
      rfl
    | octal value left =>
      have ended : unescape ending (.octal value left) (b :: back) =
          Char.ofNat (value % 256) :: b :: unescape ending .plain back := by
        rw [unescape, notOctal, Bool.and_false, if_neg Bool.false_ne_true, if_neg other]
      rw [List.nil_append, ended, tail]
      rfl
  | cons c cs ih =>
    cases state with
    | plain => rw [List.cons_append, unescape, unescape, ih, ih]
    | backslash =>
      rw [List.cons_append, unescape, unescape, ih, ih]
    | octal value left => rw [List.cons_append, unescape, unescape, ih, ih, ih]

theorem length_echo_le (text : List Char) :
    (echo [text]).length ≤ text.length + 1 ∧
      ((echo [text]).filter fun c => c ≠ '\n').length ≤ text.length ∧
        ((echo [text]).length = text.length + 1 → echo [text] = text ++ ['\n']) := by
  by_cases option : text = ['-', 'n']
  · subst option
    decide
  · have head : [text].head? ≠ some ['-', 'n'] := fun same => option (Option.some.inj same)
    rw [echo_of_head head, List.intercalate_singleton]
    rcases (unescape_spec ['\n'] text).1 with ⟨out, printed, short, whole⟩ | cut
    · rw [printed, List.length_append, List.length_singleton]
      refine ⟨Nat.succ_le_succ short, ?_, fun same => by rw [whole (Nat.succ.inj same)]⟩
      have visible := List.length_filter_le (fun c => decide (c ≠ '\n')) out
      rw [List.filter_append, List.length_append]
      exact visible.trans short
    · have visible := List.length_filter_le (fun c => decide (c ≠ '\n'))
        (unescape ['\n'] .plain text)
      exact ⟨by omega, by omega, fun same => by omega⟩

end Echo

section Read

/-- The complete lines of a text for `read`, with their backslashes: one keeps the next character,
and a line feed behind it is no end. -/
def logicalLines (line : List Char) : List Char → List (List Char)
  | [] => []
  | ['\\'] => []
  | '\\' :: c :: cs =>
      if c = '\n' then logicalLines line cs else logicalLines (line ++ ['\\', c]) cs
  | c :: cs => if c = '\n' then line :: logicalLines [] cs else logicalLines (line ++ [c]) cs

def firstLine : List Char → List Char
  | [] => []
  | ['\\'] => []
  | '\\' :: c :: cs => if c = '\n' then firstLine cs else '\\' :: c :: firstLine cs
  | c :: cs => if c = '\n' then [] else c :: firstLine cs

def blankToEnd : List Char → Bool
  | [] => true
  | ['\\'] => true
  | '\\' :: _ :: cs => blankToEnd cs
  | c :: cs => isBlank c && blankToEnd cs

/-- A line without its backslashes, and without the blanks at the end. Those in front of guarded
characters at the end go with them. -/
def unguard : List Char → List Char
  | [] => []
  | ['\\'] => []
  | '\\' :: c :: cs => c :: unguard cs
  | c :: cs => if isBlank c && blankToEnd cs then [] else c :: unguard cs

/-- What `read var` makes of a line. -/
def strip (line : List Char) : List Char := unguard (line.dropWhile isBlank)

/-- `read` leaves NUL out. -/
def present (text : List Char) : List Char := text.filter fun c => c ≠ Char.ofNat 0

/-- The values in `while read var`. -/
def readLines (text : List Char) : List (List Char) := (logicalLines [] (present text)).map strip

/-- The value behind one `read var`. -/
def readVar (text : List Char) : List Char := strip (firstLine (present text))

example : readVar "  a\\tb\\\nc \nd".toList = "atbc".toList := by decide
example : readVar "a \\b \n".toList = ['a'] := by decide
example : readLines "a \n\\ b\nc".toList = ["a".toList, " b".toList] := by decide

/-- A text that one `read` takes as it is. -/
structure Intact (text : List Char) : Prop where
  plain : ∀ c ∈ text, c ≠ '\\' ∧ c ≠ '\n' ∧ c ≠ Char.ofNat 0
  first : ∀ c ∈ text.head?, isBlank c = false
  last : ∀ c ∈ text.getLast?, isBlank c = false

instance (text : List Char) : Decidable (Intact text) :=
  decidable_of_iff ((text.all (fun c => c ≠ '\\' && c ≠ '\n' && c ≠ Char.ofNat 0) &&
      text.head?.all (fun c => !isBlank c) && text.getLast?.all fun c => !isBlank c) = true) <| by
    simp only [Bool.and_eq_true, List.all_eq_true, Option.all_eq_true, decide_eq_true_eq,
      Bool.not_eq_true', and_assoc]
    exact ⟨fun h => ⟨h.1, h.2.1, h.2.2⟩, fun h => ⟨h.plain, h.first, h.last⟩⟩

variable {line text : List Char}

private theorem logicalLines_intact (plain : ∀ c ∈ text, c ≠ '\\' ∧ c ≠ '\n' ∧ c ≠ Char.ofNat 0)
    (rest : List Char) :
    logicalLines line (text ++ '\n' :: rest) = (line ++ text) :: logicalLines [] rest := by
  induction text generalizing line with
  | nil => simp [logicalLines]
  | cons c text ih =>
    obtain ⟨⟨other, feed, _⟩, later⟩ := List.forall_mem_cons.mp plain
    rw [List.cons_append, logicalLines, if_neg feed, ih later, List.append_assoc]
    · rfl
    · exact fun same => absurd same other
    · exact fun _ _ same => absurd same other

private theorem firstLine_intact (plain : ∀ c ∈ text, c ≠ '\\' ∧ c ≠ '\n' ∧ c ≠ Char.ofNat 0) :
    firstLine (text ++ ['\n']) = text := by
  induction text with
  | nil => simp [firstLine]
  | cons c text ih =>
    obtain ⟨⟨other, feed, _⟩, later⟩ := List.forall_mem_cons.mp plain
    rw [List.cons_append, firstLine, if_neg feed, ih later]
    · exact fun same => absurd same other
    · exact fun _ _ same => absurd same other

private theorem unguard_sublist (line : List Char) : (unguard line).Sublist line := by
  induction line using unguard.induct with
  | case1 => exact List.Sublist.slnil
  | case2 => exact List.nil_sublist _
  | case3 c cs ih => exact (ih.cons_cons c).cons _
  | case4 c cs single pair ends =>
    rw [unguard, if_pos ends]
    · exact List.nil_sublist _
    · exact single
    · exact pair
  | case5 c cs single pair goes ih =>
    rw [unguard, if_neg goes]
    · exact ih.cons_cons c
    · exact single
    · exact pair

private theorem isBlank_of_blankToEnd (plain : '\\' ∉ line) (blanks : blankToEnd line = true) :
    ∀ c ∈ line, isBlank c = true := by
  induction line with
  | nil => exact nofun
  | cons c cs ih =>
    obtain ⟨now, later⟩ := not_or.mp (List.mem_cons.not.mp plain)
    rw [blankToEnd, Bool.and_eq_true] at blanks
    · exact List.forall_mem_cons.mpr ⟨blanks.1, ih later blanks.2⟩
    · exact fun same => absurd same.symm now
    · exact fun _ _ same => absurd same.symm now

private theorem unguard_intact (plain : '\\' ∉ line)
    (last : ∀ c ∈ line.getLast?, isBlank c = false) : unguard line = line := by
  induction line with
  | nil => rfl
  | cons c cs ih =>
    obtain ⟨now, later⟩ := not_or.mp (List.mem_cons.not.mp plain)
    have rest : unguard cs = cs := by
      refine ih later fun d isLast => last d ?_
      rw [List.getLast?_cons, isLast]
      rfl
    rw [unguard, rest, if_neg]
    · intro ends
      obtain ⟨blank, blanks⟩ := Bool.and_eq_true_iff.mp ends
      have all : ∀ d ∈ c :: cs, isBlank d = true :=
        List.forall_mem_cons.mpr ⟨blank, isBlank_of_blankToEnd later blanks⟩
      have isLast := List.getLast?_eq_some_getLast (List.cons_ne_nil c cs)
      have visible := last _ isLast
      rw [all _ (List.getLast_mem _)] at visible
      cases visible
    · exact fun same => absurd same.symm now
    · exact fun _ _ same => absurd same.symm now

private theorem intact_of_unguard (same : unguard line = line) :
    '\\' ∉ line ∧ ∀ c ∈ line.getLast?, isBlank c = false := by
  induction line using unguard.induct with
  | case1 => exact ⟨List.not_mem_nil, nofun⟩
  | case2 => cases same
  | case3 c cs ih =>
    have shorter := (unguard_sublist cs).length_le
    have size := congrArg List.length same
    simp only [unguard, List.length_cons] at size
    omega
  | case4 c cs single pair ends =>
    rw [unguard, if_pos ends] at same
    · cases same
    · exact single
    · exact pair
  | case5 c cs single pair goes ih =>
    have other : '\\' ≠ c := by
      rintro rfl
      cases cs with
      | nil => exact single rfl rfl
      | cons d cs => exact pair d cs rfl rfl
    have rest : unguard cs = cs := by
      rw [unguard, if_neg goes] at same
      · exact (List.cons.inj same).2
      · exact single
      · exact pair
    obtain ⟨plain, last⟩ := ih rest
    refine ⟨List.mem_cons.not.mpr (not_or.mpr ⟨other, plain⟩), ?_⟩
    intro d isLast
    cases cs with
    | nil =>
      obtain rfl : c = d := Option.some.inj isLast
      simpa [blankToEnd] using goes
    | cons e cs => exact last d (by rwa [List.getLast?_cons_cons] at isLast)

private theorem firstLine_sublist (text : List Char) :
    (firstLine text).Sublist (text.filter fun c => c ≠ '\n') := by
  induction text using firstLine.induct with
  | case1 => exact List.Sublist.slnil
  | case2 => exact List.nil_sublist _
  | case3 cs ih =>
    rw [firstLine, if_pos rfl]
    exact ih.trans (by simp)
  | case4 c cs feed ih =>
    rw [firstLine, if_neg feed, List.filter_cons_of_pos (by decide),
      List.filter_cons_of_pos (by simpa using feed)]
    exact (ih.cons_cons c).cons_cons _
  | case5 cs => exact List.nil_sublist _
  | case6 c cs single pair feed ih =>
    rw [firstLine, if_neg feed, List.filter_cons_of_pos (by simpa using feed)]
    · exact ih.cons_cons c
    · exact single
    · exact pair

theorem present_intact (intact : Intact text) : present (text ++ ['\n']) = text ++ ['\n'] := by
  refine List.filter_eq_self.mpr fun c member => ?_
  rcases List.mem_append.mp member with inside | feed
  · simpa using (intact.plain c inside).2.2
  · obtain rfl := List.mem_singleton.mp feed
    decide

theorem strip_intact (intact : Intact text) : strip text = text := by
  have front : text.dropWhile isBlank = text := by
    cases text with
    | nil => rfl
    | cons c cs => rw [List.dropWhile_cons_of_neg (by rw [intact.first c rfl]; decide)]
  rw [strip, front, unguard_intact (fun inside => (intact.plain _ inside).1 rfl) intact.last]

theorem readVar_intact (intact : Intact text) : readVar (text ++ ['\n']) = text := by
  rw [readVar, present_intact intact, firstLine_intact intact.plain, strip_intact intact]

theorem readLines_join {lines : List (List Char)} (intact : ∀ line ∈ lines, Intact line) :
    readLines (Lines.join '\n' lines) = lines := by
  induction lines with
  | nil => rfl
  | cons line lines ih =>
    obtain ⟨now, later⟩ := List.forall_mem_cons.mp intact
    have parts : Lines.join '\n' (line :: lines) = line ++ ['\n'] ++ Lines.join '\n' lines := rfl
    have whole : present (line ++ ['\n'] ++ Lines.join '\n' lines) =
        line ++ '\n' :: present (Lines.join '\n' lines) := by
      have first : present (line ++ ['\n']) = line ++ ['\n'] := present_intact now
      unfold present at first ⊢
      rw [List.filter_append, first, List.append_assoc, List.singleton_append]
    have rest := ih later
    unfold readLines at rest ⊢
    rw [parts, whole, logicalLines_intact now.plain, List.map_cons, rest, List.nil_append,
      strip_intact now]

theorem readLines_intact (intact : Intact text) : readLines (text ++ ['\n']) = [text] := by
  have alone : text ++ ['\n'] = Lines.join '\n' [text] := by simp [Lines.join]
  rw [alone]
  exact readLines_join (List.forall_mem_singleton.mpr intact)

theorem readVar_sublist (text : List Char) :
    (readVar text).Sublist (text.filter fun c => c ≠ '\n') := by
  have taken : (readVar text).Sublist (firstLine (present text)) :=
    (unguard_sublist _).trans (List.dropWhile_sublist _)
  exact (taken.trans (firstLine_sublist _)).trans (List.filter_sublist.filter _)

theorem length_readVar_le (text : List Char) : (readVar (text ++ ['\n'])).length ≤ text.length := by
  have kept := (readVar_sublist (text ++ ['\n'])).length_le
  have visible := List.length_filter_le (fun c => decide (c ≠ '\n')) text
  rw [List.filter_append, List.length_append] at kept
  exact kept.trans visible

theorem length_readVar_echo_le (text : List Char) :
    (readVar (echo [text])).length ≤ text.length :=
  (readVar_sublist _).length_le.trans (length_echo_le text).2.1

theorem intact_of_readVar (long : text.length ≤ (readVar (text ++ ['\n'])).length) :
    Intact text := by
  have feed : (present (text ++ ['\n'])).filter (fun c => c ≠ '\n') =
      (present text).filter fun c => c ≠ '\n' := by
    simp [present]
  have first := firstLine_sublist (present (text ++ ['\n']))
  rw [feed] at first
  have clean : ((present text).filter fun c => c ≠ '\n').Sublist (present text) :=
    List.filter_sublist
  have visible : (present text).Sublist text := List.filter_sublist
  have trimmed := List.dropWhile_sublist isBlank (l := firstLine (present (text ++ ['\n'])))
  have shorter : (readVar (text ++ ['\n'])).Sublist
      ((firstLine (present (text ++ ['\n']))).dropWhile isBlank) := unguard_sublist _
  -- nothing is lost on the way
  have same : firstLine (present (text ++ ['\n'])) = text :=
    ((first.trans clean).trans visible).eq_of_length_le
      (long.trans (shorter.length_le.trans trimmed.length_le))
  rw [same] at trimmed first shorter
  have front : text.dropWhile isBlank = text :=
    trimmed.eq_of_length_le (long.trans shorter.length_le)
  have stripped : unguard text = text := by
    have all := shorter.eq_of_length_le (by rw [front]; exact long)
    rwa [readVar, same, strip, front] at all
  obtain ⟨plain, last⟩ := intact_of_unguard stripped
  refine ⟨fun c member => ⟨?_, ?_, ?_⟩, fun c isHead => ?_, last⟩
  · rintro rfl
    exact plain member
  · simpa using (List.mem_filter.mp (first.subset member)).2
  · have inside := (List.mem_filter.mp (first.subset member)).1
    simpa using (List.mem_filter.mp inside).2
  · by_contra blank
    obtain ⟨rest, rfl⟩ : ∃ rest, text = c :: rest := List.head?_eq_some_iff.mp isHead
    rw [List.dropWhile_cons_of_pos (by simpa using blank)] at front
    have size := (List.dropWhile_sublist isBlank (l := rest)).length_le
    rw [front, List.length_cons] at size
    omega

private theorem length_logicalLines {l : List Char} (member : l ∈ logicalLines line text) :
    l.length + 1 ≤ line.length + text.length ∧
      (l.length + 1 = line.length + text.length → l = line ++ firstLine text) := by
  induction line, text using logicalLines.induct with
  | case1 line => cases member
  | case2 line => cases member
  | case3 line cs ih =>
    rw [logicalLines, if_pos rfl] at member
    have shorter := (ih member).1
    simp only [List.length_cons]
    exact ⟨by omega, fun same => by omega⟩
  | case4 line c cs feed ih =>
    rw [logicalLines, if_neg feed] at member
    obtain ⟨shorter, whole⟩ := ih member
    simp only [List.length_append, List.length_cons, List.length_nil] at shorter whole ⊢
    refine ⟨by omega, fun same => ?_⟩
    rw [whole (by omega), firstLine, if_neg feed]
    simp
  | case5 line cs single pair ih =>
    rw [logicalLines, if_pos rfl] at member
    · rw [firstLine, if_pos rfl]
      · rcases List.mem_cons.mp member with rfl | later
        · rw [List.length_cons]
          exact ⟨by omega, fun _ => (List.append_nil l).symm⟩
        · have shorter := (ih later).1
          simp only [List.length_cons, List.length_nil] at shorter ⊢
          exact ⟨by omega, fun same => by omega⟩
      · exact single
      · exact pair
    · exact single
    · exact pair
  | case6 line c cs single pair feed ih =>
    rw [logicalLines, if_neg feed] at member
    · obtain ⟨shorter, whole⟩ := ih member
      simp only [List.length_append, List.length_cons, List.length_nil] at shorter whole ⊢
      refine ⟨by omega, fun same => ?_⟩
      rw [whole (by omega), firstLine, if_neg feed]
      · simp
      · exact single
      · exact pair
    · exact single
    · exact pair

theorem intact_of_readLines {value : List Char} (read : value ∈ readLines (echo [text]))
    (long : text.length ≤ value.length) : Intact text ∧ text ≠ ['-', 'n'] := by
  obtain ⟨l, among, rfl⟩ := List.mem_map.mp read
  obtain ⟨short, _, printed⟩ := length_echo_le text
  have visible : (present (echo [text])).Sublist (echo [text]) := List.filter_sublist
  have stripped : (strip l).length ≤ l.length :=
    (unguard_sublist _).length_le.trans (List.dropWhile_sublist _).length_le
  obtain ⟨bound, first⟩ := length_logicalLines among
  rw [List.length_nil, Nat.zero_add] at bound first
  have seen := visible.length_le
  -- every stage keeps the length
  have whole : echo [text] = text ++ ['\n'] := printed (by omega)
  have kept : present (echo [text]) = echo [text] := visible.eq_of_length_le (by omega)
  have line : l = firstLine (present (text ++ ['\n'])) := by
    rw [← whole]
    exact first (by omega)
  refine ⟨intact_of_readVar ?_, ?_⟩
  · rw [readVar, ← line]
    exact long
  · rintro rfl
    cases whole

theorem readLines_echo (intact : Intact text) (newline : text ≠ ['-', 'n']) :
    readLines (echo [text]) = [text] := by
  rw [echo_plain (fun inside => (intact.plain _ inside).1 rfl) newline, readLines_intact intact]

end Read

end IecUtils.Foundation.Builtins
