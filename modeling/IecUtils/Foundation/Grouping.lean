/- Module: IecUtils/Foundation/Grouping
   source: none (dividing a sequence from left to right)
   digest: A group takes elements until it refuses one, which starts the next group. -/

import Mathlib.Data.List.Basic

set_option autoImplicit false
set_option relaxedAutoImplicit false

namespace IecUtils.Foundation.Grouping

universe u v w

/-- How groups are formed: by their first element, and by taking one more unless it is
refused. -/
structure Rule (α : Type u) (γ : Type v) where
  start : α → γ
  grow : γ → α → Option γ

variable {α : Type u} {γ : Type v} {δ : Type w} (rule : Rule α γ)

def Rule.groupsFrom : γ → List α → List γ
  | g, [] => [g]
  | g, a :: as =>
      match rule.grow g a with
      | some g => groupsFrom g as
      | none => g :: groupsFrom (rule.start a) as

def Rule.groups : List α → List γ
  | [] => []
  | a :: as => rule.groupsFrom (rule.start a) as

section Members

variable {rule} (members : γ → List α)

private theorem groupsFrom_members (first : ∀ a, members (rule.start a) = [a])
    (more : ∀ g a g', rule.grow g a = some g' → members g' = members g ++ [a]) (g : γ)
    (as : List α) : (rule.groupsFrom g as).flatMap members = members g ++ as := by
  induction as generalizing g with
  | nil => simp [Rule.groupsFrom]
  | cons a as ih =>
    rw [Rule.groupsFrom]
    cases grown : rule.grow g a with
    | some g' =>
      dsimp only
      rw [ih, more g a g' grown, List.append_assoc, List.singleton_append]
    | none =>
      dsimp only
      rw [List.flatMap_cons, ih, first, List.singleton_append]

theorem groups_members (first : ∀ a, members (rule.start a) = [a])
    (more : ∀ g a g', rule.grow g a = some g' → members g' = members g ++ [a]) (as : List α) :
    (rule.groups as).flatMap members = as := by
  cases as with
  | nil => rfl
  | cons a as =>
    rw [Rule.groups, groupsFrom_members members first more, first, List.singleton_append]

end Members

section Invariant

variable {rule} {P : γ → Prop} {Q : α → Prop}

private theorem groupsFrom_forall (first : ∀ a, Q a → P (rule.start a))
    (more : ∀ g a g', P g → Q a → rule.grow g a = some g' → P g') {g : γ} (holds : P g)
    {as : List α} (fit : ∀ a ∈ as, Q a) : ∀ g' ∈ rule.groupsFrom g as, P g' := by
  induction as generalizing g with
  | nil => simpa [Rule.groupsFrom] using holds
  | cons a as ih =>
    obtain ⟨now, later⟩ := List.forall_mem_cons.mp fit
    rw [Rule.groupsFrom]
    cases grown : rule.grow g a with
    | some g' => exact ih (more g a g' holds now grown) later
    | none => exact List.forall_mem_cons.mpr ⟨holds, ih (first a now) later⟩

theorem groups_forall (first : ∀ a, Q a → P (rule.start a))
    (more : ∀ g a g', P g → Q a → rule.grow g a = some g' → P g') {as : List α}
    (fit : ∀ a ∈ as, Q a) : ∀ g ∈ rule.groups as, P g := by
  cases as with
  | nil => exact fun g member => absurd member List.not_mem_nil
  | cons a as =>
    obtain ⟨now, later⟩ := List.forall_mem_cons.mp fit
    exact groupsFrom_forall first more (first a now) later

end Invariant

section Image

variable {rule} {rule' : Rule α δ} {f : γ → δ} {P : γ → Prop}

private theorem groupsFrom_map (first : ∀ a, f (rule.start a) = rule'.start a)
    (holds : ∀ a, P (rule.start a)) (kept : ∀ g a g', P g → rule.grow g a = some g' → P g')
    (more : ∀ g a, P g → rule'.grow (f g) a = (rule.grow g a).map f) {g : γ} (now : P g)
    (as : List α) : (rule.groupsFrom g as).map f = rule'.groupsFrom (f g) as := by
  induction as generalizing g with
  | nil => rfl
  | cons a as ih =>
    rw [Rule.groupsFrom, Rule.groupsFrom, more g a now]
    cases grown : rule.grow g a with
    | some g' => exact ih (kept g a g' now grown)
    | none =>
      dsimp only [Option.map_none]
      rw [List.map_cons, ih (holds a), first]

theorem groups_map (first : ∀ a, f (rule.start a) = rule'.start a)
    (holds : ∀ a, P (rule.start a)) (kept : ∀ g a g', P g → rule.grow g a = some g' → P g')
    (more : ∀ g a, P g → rule'.grow (f g) a = (rule.grow g a).map f) (as : List α) :
    (rule.groups as).map f = rule'.groups as := by
  cases as with
  | nil => rfl
  | cons a as =>
    rw [Rule.groups, Rule.groups, groupsFrom_map first holds kept more (holds a), first]

end Image

end IecUtils.Foundation.Grouping
