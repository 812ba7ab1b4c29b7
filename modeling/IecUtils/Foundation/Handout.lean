/- Module: IecUtils/Foundation/Handout
   source: none (things that are handed out by number and have to be given back)
   digest: What was handed out is held or was given back, and neither twice. -/

import Mathlib.Data.List.Perm.Basic
import Mathlib.Data.List.Range

set_option autoImplicit false
set_option relaxedAutoImplicit false

namespace IecUtils.Foundation.Handout

/-- The numbers below `handed` were handed out; `returned` has those given back. -/
structure Pool where
  handed : Nat
  returned : List Nat
  deriving DecidableEq

def Pool.empty : Pool := ⟨0, []⟩

def Pool.take (p : Pool) : Pool := { p with handed := p.handed + 1 }

def Pool.give (p : Pool) (n : Nat) : Pool := { p with returned := n :: p.returned }

/-- Everything that was handed out is held or was given back, each once. -/
def Accounted (held : List Nat) (p : Pool) : Prop := (held ++ p.returned).Perm (List.range p.handed)

variable {held more : List Nat} {p : Pool} {n : Nat}

theorem accounted_empty : Accounted [] Pool.empty := List.Perm.refl _

theorem Accounted.perm (h : Accounted held p) (same : held.Perm more) : Accounted more p :=
  (same.symm.append_right _).trans h

theorem Accounted.take (h : Accounted held p) : Accounted (p.handed :: held) p.take := by
  have grown : List.range p.take.handed = List.range p.handed ++ [p.handed] := List.range_succ
  rw [Accounted, grown, List.cons_append]
  exact (h.cons _).trans (List.perm_append_singleton _ _).symm

theorem Accounted.give (h : Accounted (n :: held) p) : Accounted held (p.give n) := by
  have moved : (held ++ (p.give n).returned).Perm (n :: held ++ p.returned) := List.perm_middle
  exact moved.trans h

theorem Accounted.nodup (h : Accounted held p) : held.Nodup := by
  have all : (held ++ p.returned).Nodup := h.nodup_iff.mpr List.nodup_range
  exact (List.nodup_append.mp all).1

theorem Accounted.fresh (h : Accounted held p) : p.handed ∉ held := by
  intro member
  have below := h.mem_iff.mp (List.mem_append_left _ member)
  exact Nat.lt_irrefl _ (List.mem_range.mp below)

end IecUtils.Foundation.Handout
