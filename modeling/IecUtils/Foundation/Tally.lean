/- Module: IecUtils/Foundation/Tally
   source: none (arrays that gather a sequence under keys, and orders by several keys)
   digest: An array holds under each key what the elements with that key make, in their order. -/

import Mathlib.Data.List.Induction
import Mathlib.Data.List.Nodup
import Mathlib.Data.List.Perm.Subperm

set_option autoImplicit false
set_option relaxedAutoImplicit false

namespace IecUtils.Foundation.Tally

universe u v w

section Arrays

variable {α : Type u} {κ : Type v} {ρ : Type w} [DecidableEq κ]

/-- Enter an element under a key; a key that is new begins with `init`. -/
def enter (step : ρ → α → ρ) (init : ρ) (k : κ) (a : α) : List (κ × ρ) → List (κ × ρ)
  | [] => [(k, step init a)]
  | (k', r) :: rows =>
    if k' = k then (k', step r a) :: rows else (k', r) :: enter step init k a rows

variable (key : α → Option κ) (step : ρ → α → ρ) (init : ρ)

/-- The array after one more element; some have no key. -/
def gather (rows : List (κ × ρ)) (a : α) : List (κ × ρ) :=
  match key a with
  | none => rows
  | some k => enter step init k a rows

def under (k : κ) (as : List α) : List α := as.filter fun a => key a = some k

variable {key step init}

private theorem enter_new {k : κ} {rows : List (κ × ρ)} (fresh : k ∉ rows.map Prod.fst) (a : α) :
    enter step init k a rows = rows ++ [(k, step init a)] := by
  induction rows with
  | nil => rfl
  | cons row rows ih =>
    rw [List.map_cons, List.mem_cons, not_or] at fresh
    rw [enter, if_neg (Ne.symm fresh.1), ih fresh.2, List.cons_append]

private theorem enter_old {k : κ} {r : ρ} {front back : List (κ × ρ)}
    (fresh : k ∉ front.map Prod.fst) (a : α) :
    enter step init k a (front ++ (k, r) :: back) = front ++ (k, step r a) :: back := by
  induction front with
  | nil => rw [List.nil_append, enter, if_pos rfl, List.nil_append]
  | cons row front ih =>
    rw [List.map_cons, List.mem_cons, not_or] at fresh
    rw [List.cons_append, enter, if_neg (Ne.symm fresh.1), ih fresh.2, List.cons_append]

/-- What an array holds of a sequence. -/
structure Holds (key : α → Option κ) (step : ρ → α → ρ) (init : ρ) (as : List α)
    (rows : List (κ × ρ)) : Prop where
  nodup : (rows.map Prod.fst).Nodup
  mem_iff : ∀ k r, (k, r) ∈ rows ↔ under key k as ≠ [] ∧ r = (under key k as).foldl step init

private theorem under_concat (k : κ) (as : List α) (a : α) :
    under key k (as ++ [a]) = under key k as ++ if key a = some k then [a] else [] := by
  rw [under, List.filter_append, List.filter_singleton]
  congr 1
  by_cases same : key a = some k <;> simp [same]

private theorem under_same {k : κ} (as : List α) {a : α} (known : key a = some k) :
    under key k (as ++ [a]) = under key k as ++ [a] := by
  rw [under_concat, known, if_pos rfl]

private theorem under_other {k k' : κ} (other : k' ≠ k) (as : List α) {a : α}
    (known : key a = some k) : under key k' (as ++ [a]) = under key k' as := by
  rw [under_concat, known, if_neg (fun same => other (Option.some.inj same).symm),
    List.append_nil]

private theorem holds_old {as : List α} {front back : List (κ × ρ)} {k : κ} {r : ρ}
    (holds : Holds key step init as (front ++ (k, r) :: back)) {a : α} (known : key a = some k) :
    Holds key step init (as ++ [a]) (front ++ (k, step r a) :: back) := by
  have keys := holds.nodup
  rw [List.map_append, List.map_cons] at keys
  obtain ⟨apart, _⟩ := List.nodup_cons.mp (List.nodup_middle.mp keys)
  obtain ⟨some, value⟩ := (holds.mem_iff k r).mp (List.mem_append_right _ List.mem_cons_self)
  constructor
  · rw [List.map_append, List.map_cons]
    exact keys
  · intro k' r'
    by_cases other : k' = k
    · subst other
      have notFront : (k', r') ∉ front := fun inside =>
        apart (List.mem_append_left _ (List.mem_map.mpr ⟨_, inside, rfl⟩))
      have notBack : (k', r') ∉ back := fun inside =>
        apart (List.mem_append_right _ (List.mem_map.mpr ⟨_, inside, rfl⟩))
      rw [under_same as known, List.foldl_append, ← value]
      simp [notFront, notBack]
    · rw [under_other other as known, ← holds.mem_iff k' r']
      simp [other]

private theorem holds_new {as : List α} {rows : List (κ × ρ)} {k : κ}
    (holds : Holds key step init as rows) (fresh : k ∉ rows.map Prod.fst) {a : α}
    (known : key a = some k) :
    Holds key step init (as ++ [a]) (rows ++ [(k, step init a)]) := by
  have none : under key k as = [] := by
    by_contra some
    exact fresh (List.mem_map_of_mem ((holds.mem_iff k _).mpr ⟨some, rfl⟩))
  constructor
  · rw [List.map_append]
    exact holds.nodup.append (List.nodup_singleton k) (by simpa using fresh)
  · intro k' r'
    by_cases other : k' = k
    · subst other
      have absent : (k', r') ∉ rows := fun inside => fresh (List.mem_map.mpr ⟨_, inside, rfl⟩)
      rw [under_same as known, none]
      simp [absent]
    · rw [under_other other as known, ← holds.mem_iff k' r']
      simp [other]

theorem holds_gather {as : List α} {rows : List (κ × ρ)} (holds : Holds key step init as rows)
    (a : α) : Holds key step init (as ++ [a]) (gather key step init rows a) := by
  unfold gather
  cases known : key a with
  | none =>
    refine ⟨holds.nodup, fun k r => ?_⟩
    rw [under_concat, known, if_neg (Option.some_ne_none k).symm, List.append_nil]
    exact holds.mem_iff k r
  | some k =>
    dsimp only
    by_cases old : k ∈ rows.map Prod.fst
    · obtain ⟨⟨k, r⟩, member, rfl⟩ := List.mem_map.mp old
      obtain ⟨front, back, rfl⟩ := List.append_of_mem member
      have keys := holds.nodup
      rw [List.map_append, List.map_cons, List.nodup_middle, List.nodup_cons, List.mem_append,
        not_or] at keys
      rw [enter_old keys.1.1]
      exact holds_old holds known
    · rw [enter_new old]
      exact holds_new holds old known

theorem holds_foldl (as : List α) :
    Holds key step init as (as.foldl (gather key step init) []) := by
  induction as using List.reverseRecOn with
  | nil => exact ⟨List.nodup_nil, fun k r => by simp [under]⟩
  | append_singleton as a ih =>
    rw [List.foldl_append]
    exact holds_gather ih a

end Arrays

section Order

variable {α : Type u} {f : α → Nat} {le : α → α → Bool}

/-- Order by a number, and by `le` where it is the same. -/
def byKey (f : α → Nat) (le : α → α → Bool) (a b : α) : Bool :=
  decide (f a < f b) || (decide (f a = f b) && le a b)

theorem byKey_iff {a b : α} :
    byKey f le a b = true ↔ f a < f b ∨ f a = f b ∧ le a b = true := by
  simp [byKey]

theorem byKey_trans (trans : ∀ a b c, le a b = true → le b c = true → le a c = true) (a b c : α)
    (first : byKey f le a b = true) (second : byKey f le b c = true) : byKey f le a c = true := by
  rw [byKey_iff] at first second ⊢
  rcases first with less | ⟨same, below⟩
  · rcases second with more | ⟨equal, _⟩
    · exact .inl (Nat.lt_trans less more)
    · exact .inl (equal ▸ less)
  · rcases second with more | ⟨equal, above⟩
    · exact .inl (same ▸ more)
    · exact .inr ⟨same.trans equal, trans a b c below above⟩

theorem byKey_total (total : ∀ a b, (le a b || le b a) = true) (a b : α) :
    (byKey f le a b || byKey f le b a) = true := by
  rw [Bool.or_eq_true, byKey_iff, byKey_iff]
  rcases Nat.lt_trichotomy (f a) (f b) with less | same | more
  · exact .inl (.inl less)
  · rcases Bool.or_eq_true _ _ ▸ total a b with below | above
    · exact .inl (.inr ⟨same, below⟩)
    · exact .inr (.inr ⟨same.symm, above⟩)
  · exact .inr (.inl more)

theorem eq_range' {ns : List Nat} (sorted : ns.Pairwise (· ≤ ·)) (nodup : ns.Nodup)
    (bounds : ∀ n ∈ ns, 1 ≤ n ∧ n ≤ ns.length) : ns = List.range' 1 ns.length := by
  have part : ns ⊆ List.range' 1 ns.length := by
    intro n member
    have bound := bounds n member
    rw [List.mem_range'_1]
    omega
  have all : ns.Perm (List.range' 1 ns.length) :=
    (nodup.subperm part).perm_of_length_le (Nat.le_of_eq List.length_range')
  refine List.Perm.eq_of_pairwise ?_ sorted (List.pairwise_le_range') all
  exact fun _ _ _ _ => Nat.le_antisymm

end Order

end IecUtils.Foundation.Tally
