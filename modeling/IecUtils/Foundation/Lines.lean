/- Module: IecUtils/Foundation/Lines
   source: none (sequences cut at a separator)
   digest: A sequence has its complete lines and a rest, and both can be had piece by piece. -/

import Mathlib.Data.List.Basic

set_option autoImplicit false
set_option relaxedAutoImplicit false

namespace IecUtils.Foundation.Lines

universe u

variable {α : Type u} [DecidableEq α] (sep : α)

/-- The lines that end in a separator, and what follows the last one. -/
def cut : List α → List (List α) × List α
  | [] => ([], [])
  | a :: as =>
      if a = sep then ([] :: (cut as).1, (cut as).2)
      else
        match cut as with
        | ([], rest) => ([], a :: rest)
        | (line :: lines, rest) => ((a :: line) :: lines, rest)

def join (lines : List (List α)) : List α := lines.flatMap (· ++ [sep])

variable {sep}

theorem cut_none {as : List α} (none : sep ∉ as) : cut sep as = ([], as) := by
  induction as with
  | nil => rfl
  | cons a as ih =>
    obtain ⟨first, later⟩ := not_or.mp (List.mem_cons.not.mp none)
    rw [cut, if_neg (Ne.symm first), ih later]

theorem cut_some {as : List α} (some : sep ∈ as) :
    cut sep as =
      (as.takeWhile (· ≠ sep) :: (cut sep ((as.dropWhile (· ≠ sep)).drop 1)).1,
        (cut sep ((as.dropWhile (· ≠ sep)).drop 1)).2) := by
  induction as with
  | nil => cases some
  | cons a as ih =>
    by_cases here : a = sep
    · subst here
      simp [cut]
    · have later : sep ∈ as := (List.mem_cons.mp some).resolve_left (Ne.symm here)
      rw [cut, if_neg here, ih later]
      simp [here]

theorem cut_append (as bs : List α) :
    cut sep (as ++ bs) =
      ((cut sep as).1 ++ (cut sep ((cut sep as).2 ++ bs)).1, (cut sep ((cut sep as).2 ++ bs)).2) := by
  induction as with
  | nil => rfl
  | cons a as ih =>
    rw [List.cons_append, cut, cut]
    split
    · rw [ih]
      rfl
    · rename_i other
      rw [ih]
      cases parts : cut sep as with
      | mk lines rest =>
        cases lines with
        | nil =>
          simp only [List.nil_append, List.cons_append]
          rw [cut, if_neg other]
        | cons line lines => rfl

theorem cut_line (line as : List α) (free : sep ∉ line) :
    cut sep (line ++ sep :: as) = (line :: (cut sep as).1, (cut sep as).2) := by
  induction line with
  | nil => simp [cut]
  | cons a line ih =>
    obtain ⟨first, later⟩ := not_or.mp (List.mem_cons.not.mp free)
    rw [List.cons_append, cut, if_neg (Ne.symm first), ih later]

theorem cut_join {lines : List (List α)} (free : ∀ line ∈ lines, sep ∉ line) :
    cut sep (join sep lines) = (lines, []) := by
  induction lines with
  | nil => rfl
  | cons line lines ih =>
    have rest := ih fun l member => free l (List.mem_cons_of_mem _ member)
    have same : join sep (line :: lines) = line ++ sep :: join sep lines := by simp [join]
    rw [same, cut_line line _ (free line List.mem_cons_self), rest]

theorem join_cut (as : List α) : join sep (cut sep as).1 ++ (cut sep as).2 = as := by
  induction as with
  | nil => rfl
  | cons a as ih =>
    rw [cut]
    split
    · rename_i here
      subst here
      rw [join, List.flatMap_cons, List.nil_append, List.append_assoc, List.singleton_append]
      exact congrArg _ ih
    · cases parts : cut sep as with
      | mk lines rest =>
        rw [parts] at ih
        cases lines with
        | nil => exact congrArg (a :: ·) ih
        | cons line lines =>
          simp only [join, List.flatMap_cons, List.cons_append] at ih ⊢
          rw [ih]

theorem length_cut (as : List α) : (cut sep as).1.length = as.count sep := by
  induction as with
  | nil => rfl
  | cons a as ih =>
    rw [cut, List.count_cons]
    split
    · rename_i here
      rw [List.length_cons, ih, here, beq_self_eq_true, if_pos rfl]
    · rename_i other
      rw [beq_false_of_ne other, if_neg Bool.false_ne_true, Nat.add_zero, ← ih]
      cases parts : cut sep as with
      | mk lines rest =>
        cases lines with
        | nil => rfl
        | cons line lines => rfl

theorem length_cut_join_iff (lines : List (List α)) :
    (cut sep (join sep lines)).1.length = lines.length ↔ ∀ line ∈ lines, sep ∉ line := by
  rw [length_cut]
  have count : lines.length ≤ (join sep lines).count sep ∧
      ((join sep lines).count sep = lines.length ↔ ∀ line ∈ lines, sep ∉ line) := by
    induction lines with
    | nil => exact ⟨Nat.le_refl _, fun _ => nofun, fun _ => rfl⟩
    | cons line lines ih =>
      obtain ⟨least, exact⟩ := ih
      have step : (join sep (line :: lines)).count sep =
          line.count sep + 1 + (join sep lines).count sep := by
        rw [join, List.flatMap_cons, List.count_append, List.count_append,
          List.count_singleton_self]
        rfl
      rw [step, List.length_cons, List.forall_mem_cons, ← exact, ← List.count_eq_zero]
      constructor
      · omega
      · omega
  exact count.2

theorem cut_rest_free (as : List α) : sep ∉ (cut sep as).2 := by
  induction as with
  | nil => exact List.not_mem_nil
  | cons a as ih =>
    rw [cut]
    split
    · exact ih
    · rename_i other
      cases parts : cut sep as with
      | mk lines rest =>
        rw [parts] at ih
        cases lines with
        | nil => exact List.mem_cons.not.mpr (not_or.mpr ⟨Ne.symm other, ih⟩)
        | cons line lines => exact ih

theorem cut_lines_free (as : List α) : ∀ line ∈ (cut sep as).1, sep ∉ line := by
  induction as with
  | nil => exact fun _ member => absurd member List.not_mem_nil
  | cons a as ih =>
    rw [cut]
    split
    · exact List.forall_mem_cons.mpr ⟨List.not_mem_nil, ih⟩
    · rename_i other
      cases parts : cut sep as with
      | mk lines rest =>
        rw [parts] at ih
        cases lines with
        | nil => exact ih
        | cons line lines =>
          obtain ⟨first, later⟩ := List.forall_mem_cons.mp ih
          refine List.forall_mem_cons.mpr ⟨?_, later⟩
          exact List.mem_cons.not.mpr (not_or.mpr ⟨Ne.symm other, first⟩)

theorem cut_rest_begins {lines : List (List α)} {as bs : List α}
    (free : ∀ line ∈ lines, sep ∉ line) (whole : as ++ bs = join sep lines) :
    (cut sep as).2 = [] ∨ ∃ line ∈ lines, (cut sep as).2 <+: line := by
  have parts : cut sep (as ++ bs) = _ := cut_append as bs
  rw [whole, cut_join free, Prod.mk.injEq] at parts
  obtain ⟨all, none⟩ := parts
  have restFree : sep ∉ (cut sep as).2 := cut_rest_free as
  by_cases more : sep ∈ (cut sep as).2 ++ bs
  · rw [cut_some more] at all
    refine .inr ⟨((cut sep as).2 ++ bs).takeWhile (· ≠ sep), ?_, ?_⟩
    · rw [all]
      exact List.mem_append_right _ List.mem_cons_self
    · have first : ∀ a ∈ (cut sep as).2, decide (a ≠ sep) = true := by
        intro a member
        simp only [ne_eq, decide_not, Bool.not_eq_true', decide_eq_false_iff_not]
        rintro rfl
        exact restFree member
      rw [List.takeWhile_append_of_pos first]
      exact List.prefix_append _ _
  · rw [cut_none more] at none
    exact .inl (List.append_eq_nil_iff.mp none.symm).1

end IecUtils.Foundation.Lines
