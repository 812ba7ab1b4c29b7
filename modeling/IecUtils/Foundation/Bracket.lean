/- Module: IecUtils/Foundation/Bracket
   source: none (counting argument about sequences)
   digest: Sequences in which no prefix closes more than it has opened, up to an allowance. -/

import Mathlib.Data.List.Basic

set_option autoImplicit false
set_option relaxedAutoImplicit false

namespace IecUtils.Foundation.Bracket

universe u

variable {α : Type u} {opens closes : α} {l m : List α}

def Plain (opens closes : α) (l : List α) : Prop := ∀ x ∈ l, x ≠ opens ∧ x ≠ closes

theorem Plain.append (h : Plain opens closes l) (next : Plain opens closes m) :
    Plain opens closes (l ++ m) := by
  intro x member
  rcases List.mem_append.mp member with old | new
  · exact h x old
  · exact next x new

section Within

variable [DecidableEq α] {d e : Nat}

/-- No prefix closes more than it opens and `d`. -/
def Within (opens closes : α) (d : Nat) (l : List α) : Prop :=
  ∀ p, p <+: l → p.count closes ≤ p.count opens + d

theorem Within.all (h : Within opens closes d l) : l.count closes ≤ l.count opens + d :=
  h l (List.prefix_refl l)

theorem within_nil : Within opens closes d [] := by
  intro p pre
  rw [List.prefix_nil.mp pre]
  exact Nat.zero_le _

theorem Within.append (h : Within opens closes d l) (left : l.count closes + e ≤ l.count opens + d)
    (next : Within opens closes e m) : Within opens closes d (l ++ m) := by
  intro p pre
  rcases List.prefix_or_prefix_of_prefix pre (List.prefix_append l m) with inside | beyond
  · exact h p inside
  · obtain ⟨q, rfl⟩ := beyond
    have later := next q ((List.prefix_append_right_inj l).mp pre)
    rw [List.count_append, List.count_append]
    omega

theorem Plain.count_closes (h : Plain opens closes l) : l.count closes = 0 :=
  List.count_eq_zero_of_not_mem fun member => (h closes member).2 rfl

theorem Plain.count_opens (h : Plain opens closes l) : l.count opens = 0 :=
  List.count_eq_zero_of_not_mem fun member => (h opens member).1 rfl

theorem Plain.within (h : Plain opens closes l) : Within opens closes d l := by
  intro p pre
  have plain : Plain opens closes p := fun x member => h x (pre.subset member)
  rw [plain.count_closes]
  exact Nat.zero_le _

theorem within_open (differ : opens ≠ closes) : Within opens closes d [opens] := by
  intro p pre
  have none : p.count closes = 0 := by
    have few := pre.sublist.count_le closes
    rw [List.count_singleton, if_neg (by simpa using differ)] at few
    exact Nat.le_zero.mp few
  rw [none]
  exact Nat.zero_le _

theorem within_close : Within opens closes 1 [closes] := by
  intro p pre
  have few := pre.sublist.count_le closes
  rw [List.count_singleton_self] at few
  omega

end Within

end IecUtils.Foundation.Bracket
