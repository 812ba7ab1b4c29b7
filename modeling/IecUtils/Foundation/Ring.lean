/- Module: IecUtils/Foundation/Ring
   source: none (queues with a bound, kept in an array whose end meets its beginning)
   digest: A bounded queue, and the cells that hold a sequence from some index on. -/

import Mathlib.Data.List.Basic
import Mathlib.Data.Nat.ModEq

set_option autoImplicit false
set_option relaxedAutoImplicit false

namespace IecUtils.Foundation.Ring

universe u

variable {α : Type u}

section Fifo

/-- A queue, the oldest entry first, and what has left it, in order. -/
structure Fifo (α : Type u) where
  gone : List α
  live : List α
  deriving DecidableEq

def Fifo.empty : Fifo α := ⟨[], []⟩

def Fifo.pop (q : Fifo α) : Fifo α := ⟨q.gone ++ q.live.take 1, q.live.drop 1⟩

def Fifo.push (bound : Nat) (q : Fifo α) (x : α) : Fifo α :=
  if q.live.length < bound then ⟨q.gone, q.live ++ [x]⟩ else ⟨q.pop.gone, q.pop.live ++ [x]⟩

variable {bound : Nat} {q : Fifo α}

theorem Fifo.push_of_lt (room : q.live.length < bound) (x : α) :
    q.push bound x = ⟨q.gone, q.live ++ [x]⟩ := if_pos room

theorem Fifo.push_of_full (full : q.live.length = bound) (x : α) :
    q.push bound x = ⟨q.pop.gone, q.pop.live ++ [x]⟩ := if_neg (by omega)

theorem Fifo.pop_all (q : Fifo α) : q.pop.gone ++ q.pop.live = q.gone ++ q.live := by
  rw [pop, List.append_assoc, List.take_append_drop]

theorem Fifo.push_all (bound : Nat) (q : Fifo α) (x : α) :
    (q.push bound x).gone ++ (q.push bound x).live = q.gone ++ q.live ++ [x] := by
  rw [push]
  split
  · rw [List.append_assoc]
  · rw [← q.pop_all, List.append_assoc]

end Fifo

section Cells

/-- The cells hold the sequence from an index on, around the end of the array. -/
structure Holds (cells : List α) (start : Nat) (xs : List α) : Prop where
  short : xs.length ≤ cells.length
  cell : ∀ i (h : i < xs.length), cells[(start + i) % cells.length]? = some xs[i]

variable {cells xs : List α} {start : Nat}

theorem holds_nil : Holds cells start [] := ⟨Nat.zero_le _, nofun⟩

theorem place_inj {n i j : Nat} (low : i < n) (low' : j < n)
    (same : (start + i) % n = (start + j) % n) : i = j :=
  Nat.ModEq.eq_of_lt_of_lt (Nat.ModEq.add_left_cancel' start same) low low'

theorem Holds.push (holds : Holds cells start xs) (room : xs.length < cells.length) (x : α) :
    Holds (cells.set ((start + xs.length) % cells.length) x) start (xs ++ [x]) := by
  have inside : (start + xs.length) % cells.length < cells.length := Nat.mod_lt _ (by omega)
  refine ⟨?_, ?_⟩
  · rw [List.length_append, List.length_singleton, List.length_set]
    exact room
  · intro i h
    rw [List.length_set]
    rw [List.length_append, List.length_singleton] at h
    by_cases old : i < xs.length
    · rw [List.getElem_append_left old, List.getElem?_set_ne, holds.cell i old]
      intro same
      have equal := place_inj room (by omega) same
      omega
    · obtain rfl : i = xs.length := by omega
      rw [List.getElem?_set_self inside]
      simp

theorem Holds.pop {x : α} (holds : Holds cells start (x :: xs)) :
    Holds cells ((start + 1) % cells.length) xs := by
  refine ⟨Nat.le_of_succ_le holds.short, ?_⟩
  intro i h
  have next := holds.cell (i + 1) (Nat.succ_lt_succ h)
  rw [List.getElem_cons_succ] at next
  rw [Nat.mod_add_mod, Nat.add_assoc, Nat.add_comm 1, next]

theorem Holds.head {x : α} (holds : Holds cells start (x :: xs)) :
    cells[start % cells.length]? = some x := holds.cell 0 (Nat.zero_lt_succ _)

end Cells

end IecUtils.Foundation.Ring
