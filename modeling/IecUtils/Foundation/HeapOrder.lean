/- Module: IecUtils/Foundation/HeapOrder
   source: none (binary heaps as functions on positions)
   digest: A heap with one misplaced position is ordered again after exchanges along a path. -/

import Mathlib.Order.Lattice

set_option autoImplicit false
set_option relaxedAutoImplicit false

namespace IecUtils.Foundation.HeapOrder

universe u

section Exchange

variable {α : Type u} {f : Nat → α}

def exchanged (f : Nat → α) (i j : Nat) : Nat → α :=
  fun k => if k = i then f j else if k = j then f i else f k

theorem exchanged_left (i j : Nat) : exchanged f i j i = f j := if_pos rfl

theorem exchanged_right (i j : Nat) : exchanged f i j j = f i := by
  unfold exchanged
  split
  · rename_i same
    rw [same]
  · rw [if_pos rfl]

theorem exchanged_other {i j k : Nat} (left : k ≠ i) (right : k ≠ j) : exchanged f i j k = f k := by
  rw [exchanged, if_neg left, if_neg right]

end Exchange

variable {α : Type u} [LinearOrder α] {n hole : Nat} {f : Nat → α}

/-- The positions `1..n` hold a heap: position `i` has its parent at `i / 2`. -/
def Ordered (n : Nat) (f : Nat → α) : Prop := ∀ i, 2 ≤ i → i ≤ n → f (i / 2) ≤ f i

/-- Only the position may be before its parent; what is below it goes with the parent. -/
structure Rising (n : Nat) (f : Nat → α) (hole : Nat) : Prop where
  others : ∀ i, 2 ≤ i → i ≤ n → i ≠ hole → f (i / 2) ≤ f i
  below : 2 ≤ hole → ∀ i, i ≤ n → i / 2 = hole → f (hole / 2) ≤ f i

/-- Only the position may be behind its children; they go with its parent. -/
structure Sinking (n : Nat) (f : Nat → α) (hole : Nat) : Prop where
  others : ∀ i, 2 ≤ i → i ≤ n → i / 2 ≠ hole → f (i / 2) ≤ f i
  below : 2 ≤ hole → ∀ i, i ≤ n → i / 2 = hole → f (hole / 2) ≤ f i

theorem Ordered.least (h : Ordered n f) {i : Nat} (positive : 1 ≤ i) (within : i ≤ n) :
    f 1 ≤ f i := by
  induction i using Nat.strongRecOn with
  | _ i ih =>
    rcases Nat.lt_or_ge i 2 with one | more
    · obtain rfl : i = 1 := by omega
      exact le_refl _
    · have parent := ih (i / 2) (by omega) (by omega) (by omega)
      exact parent.trans (h i more within)

theorem Ordered.rising (h : Ordered n f) {g : Nat → α} (same : ∀ i, i ≤ n → g i = f i) :
    Rising (n + 1) g (n + 1) := by
  refine ⟨?_, ?_⟩
  · intro i more within apart
    rw [same i (by omega), same (i / 2) (by omega)]
    exact h i more (by omega)
  · intro _ i within child
    omega

theorem Rising.exchange (h : Rising n f hole) (within : hole ≤ n) (inner : 1 < hole)
    (before : f hole < f (hole / 2)) : Rising n (exchanged f hole (hole / 2)) (hole / 2) := by
  have apart : hole / 2 ≠ hole := by omega
  refine ⟨?_, ?_⟩
  · intro i more inside other
    by_cases here : i = hole
    · rw [here, exchanged_left, exchanged_right]
      exact before.le
    · rw [exchanged_other here other]
      by_cases child : i / 2 = hole
      · rw [child, exchanged_left]
        exact h.below inner i inside child
      · by_cases sibling : i / 2 = hole / 2
        · rw [sibling, exchanged_right]
          have order := h.others i more inside here
          rw [sibling] at order
          exact before.le.trans order
        · rw [exchanged_other child sibling]
          exact h.others i more inside here
  · intro higher i inside child
    have above : f (hole / 2 / 2) ≤ f (hole / 2) := h.others (hole / 2) higher (by omega) apart
    rw [exchanged_other (by omega) (by omega)]
    by_cases here : i = hole
    · rw [here, exchanged_left]
      exact above
    · rw [exchanged_other here (by omega)]
      have order := h.others i (by omega) inside here
      rw [child] at order
      exact above.trans order

theorem Rising.done (h : Rising n f hole) (stops : 1 < hole → f (hole / 2) ≤ f hole) :
    Ordered n f := by
  intro i more within
  by_cases here : i = hole
  · rw [here]
    exact stops (by omega)
  · exact h.others i more within here

theorem Ordered.sinking (h : Ordered n f) {m : Nat} (fewer : m ≤ n) {g : Nat → α}
    (same : ∀ i, 2 ≤ i → i ≤ m → g i = f i) : Sinking m g 1 := by
  refine ⟨?_, ?_⟩
  · intro i more within apart
    rw [same i more within, same (i / 2) (by omega) (by omega)]
    exact h i more (by omega)
  · intro impossible
    omega

theorem Sinking.exchange (h : Sinking n f hole) (positive : 1 ≤ hole) {child : Nat}
    (inside : child ≤ n) (below : child / 2 = hole) (before : f child < f hole)
    (least : ∀ i, i ≤ n → i / 2 = hole → f child ≤ f i) :
    Sinking n (exchanged f hole child) child := by
  have down : hole < child := by omega
  refine ⟨?_, ?_⟩
  · intro i more within apart
    by_cases sibling : i / 2 = hole
    · rw [sibling, exchanged_left]
      by_cases here : i = child
      · rw [here, exchanged_right]
        exact before.le
      · rw [exchanged_other (by omega) here]
        exact least i within sibling
    · rw [exchanged_other sibling apart]
      by_cases here : i = hole
      · rw [here, exchanged_left]
        exact h.below (by omega) child inside below
      · rw [exchanged_other here (by omega)]
        exact h.others i more within sibling
  · intro _ i within grandchild
    have apart : i / 2 ≠ hole := by omega
    rw [below, exchanged_left, exchanged_other (by omega) (by omega)]
    have order := h.others i (by omega) within apart
    rw [grandchild] at order
    exact order

theorem Sinking.done (h : Sinking n f hole) (stops : ∀ i, i ≤ n → i / 2 = hole → f hole ≤ f i) :
    Ordered n f := by
  intro i more within
  by_cases here : i / 2 = hole
  · rw [here]
    exact stops i within here
  · exact h.others i more within here

end IecUtils.Foundation.HeapOrder
