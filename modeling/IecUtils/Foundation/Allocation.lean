/- Module: IecUtils/Foundation/Allocation
   source: none (arrays in allocated memory, written and read with their bounds checked)
   digest: Cells that hold a list from some index on, through stores, growth and moves. -/

import Mathlib.Data.List.Basic

set_option autoImplicit false
set_option relaxedAutoImplicit false

namespace IecUtils.Foundation.Allocation

universe u

variable {α : Type u}

/-- An allocated array; a cell that was not written yet has no value. -/
abbrev Cells (α : Type u) := List (Option α)

def fresh (count : Nat) : Cells α := List.replicate count none

/-- The array with another number of cells; what fits in keeps its place. -/
def resize (cells : Cells α) (count : Nat) : Cells α :=
  cells.take count ++ List.replicate (count - cells.length) none

/-- A load has a value inside the array only, and only once the cell was written. -/
def load (cells : Cells α) (i : Nat) : Option α := cells[i]?.join

/-- A store is possible inside the array only. -/
def store (cells : Cells α) (i : Nat) (value : α) : Option (Cells α) :=
  if i < cells.length then some (cells.set i (some value)) else none

/-- The `count` cells behind index `i` move one index down, all of them inside the array. -/
def moveDown (cells : Cells α) (i count : Nat) : Option (Cells α) :=
  if i + 1 + count ≤ cells.length then
    some (cells.take i ++ (cells.drop (i + 1)).take count ++ cells.drop (i + count))
  else none

/-- The cells from index `base` on were written with the list. -/
def Filled (cells : Cells α) (base : Nat) (xs : List α) : Prop :=
  ∀ i, i < xs.length → load cells (i + base) = xs[i]?

variable {cells : Cells α} {base i j count : Nat} {value : α} {xs : List α}

theorem load_lt (here : load cells i = some value) : i < cells.length := by
  by_contra outside
  rw [load, List.getElem?_eq_none (by omega)] at here
  cases here

theorem store_eq (inside : i < cells.length) (value : α) :
    store cells i value = some (cells.set i (some value)) := if_pos inside

theorem moveDown_eq (inside : i + 1 + count ≤ cells.length) :
    moveDown cells i count =
      some (cells.take i ++ (cells.drop (i + 1)).take count ++ cells.drop (i + count)) :=
  if_pos inside

theorem load_set_self (inside : i < cells.length) (value : α) :
    load (cells.set i (some value)) i = some value := by
  rw [load, List.getElem?_set_self inside]
  rfl

theorem load_set_other (apart : i ≠ j) (value : α) :
    load (cells.set i (some value)) j = load cells j := by
  rw [load, List.getElem?_set_ne apart]
  rfl

theorem length_resize (cells : Cells α) (count : Nat) : (resize cells count).length = count := by
  rw [resize, List.length_append, List.length_take, List.length_replicate]
  omega

theorem load_resize (inside : i < cells.length) (kept : i < count) :
    load (resize cells count) i = load cells i := by
  rw [load, resize, List.getElem?_append_left (by rw [List.length_take]; omega),
    List.getElem?_take_of_lt kept]
  rfl

theorem filled_nil (cells : Cells α) (base : Nat) : Filled cells base [] :=
  fun i within => absurd within (Nat.not_lt_zero i)

theorem Filled.lt (h : Filled cells base xs) (within : i < xs.length) :
    i + base < cells.length := by
  have here := h i within
  rw [List.getElem?_eq_getElem within] at here
  exact load_lt here

theorem Filled.get (h : Filled cells base xs) (within : i < xs.length) :
    ∃ value, load cells (i + base) = some value ∧ xs[i]? = some value :=
  ⟨xs[i], by rw [h i within, List.getElem?_eq_getElem within], List.getElem?_eq_getElem within⟩

theorem Filled.set (h : Filled cells base xs) (within : i < xs.length) (value : α) :
    Filled (cells.set (i + base) (some value)) base (xs.set i value) := by
  intro k inside
  rw [List.length_set] at inside
  by_cases here : i = k
  · rw [← here, load_set_self (h.lt within), List.getElem?_set_self within]
  · rw [load_set_other (by omega), List.getElem?_set_ne here]
    exact h k inside

theorem Filled.append (h : Filled cells base xs) (room : xs.length + base < cells.length)
    (value : α) : Filled (cells.set (xs.length + base) (some value)) base (xs ++ [value]) := by
  intro k inside
  rw [List.length_append, List.length_singleton] at inside
  by_cases last : k = xs.length
  · rw [last, load_set_self room, List.getElem?_concat_length]
  · rw [load_set_other (by omega), List.getElem?_append_left (by omega)]
    exact h k (by omega)

theorem Filled.shorter {ys : List α} (h : Filled cells base xs) (begins : ys.IsPrefix xs) :
    Filled cells base ys := by
  obtain ⟨rest, rfl⟩ := begins
  intro i within
  rw [h i (by rw [List.length_append]; omega), List.getElem?_append_left within]

theorem Filled.resize (h : Filled cells base xs) (room : xs.length + base ≤ count) :
    Filled (resize cells count) base xs := by
  intro i within
  rw [load_resize (h.lt within) (by omega)]
  exact h i within

end IecUtils.Foundation.Allocation
