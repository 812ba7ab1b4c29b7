/- Module: IecUtils/Queue/Control
   source: quemngr/quecontrol.c
   digest: Message lists: adding, finding, deleting and sorting their entries. -/

import IecUtils.Queue.Files
import IecUtils.Queue.Heap

set_option autoImplicit false
set_option relaxedAutoImplicit false

namespace IecUtils.Queue.Control

open IecUtils.Queue.Files
open IecUtils.Queue.Heap

/-- `struct msg`. -/
structure Msg where
  inode : Ino
  modtime : Timeval
  state : Nat
  deriving DecidableEq

/-- `struct msglist` as the list it stands for; `total` is the length of `msg`. -/
structure Msglist where
  msg : List Msg
  conf : Int
  send : Int
  timeout : Nat
  deriving DecidableEq

def Msglist.total (l : Msglist) : Int := l.msg.length

def Msglist.inodes (l : Msglist) : List Ino := l.msg.map Msg.inode

def elemNew (inode : Ino) (modtime : Timeval) (state : Nat) : Msg := ⟨inode, modtime, state⟩

def elemAdd (l : Msglist) (elem : Msg) : Msglist := { l with msg := l.msg ++ [elem] }

def elemFind (l : Msglist) (inode : Ino) : Option Nat := l.msg.findIdx? fun e => e.inode = inode

def elemDel (l : Msglist) (inode : Ino) : Msglist :=
  { l with msg := l.msg.eraseP fun e => e.inode = inode }

/-- The time `mtimecomp` compares, in microseconds. -/
def Msg.time (e : Msg) : Int := e.modtime.sec * 1000000 + e.modtime.usec

/-- What `qsort` with `mtimecomp` may make of a list. -/
def QueueSort (old new : List Msg) : Prop :=
  new.Perm old ∧ new.Pairwise fun a b => a.time ≤ b.time

instance (old new : List Msg) : Decidable (QueueSort old new) :=
  inferInstanceAs (Decidable (_ ∧ _))

section Lists

variable {l : Msglist} {i : Ino}

theorem Msglist.inodes_of_empty (empty : l.total ≤ 0) : l.inodes = [] := by
  unfold Msglist.total at empty
  rw [Msglist.inodes, List.map_eq_nil_iff, ← List.length_eq_zero_iff]
  omega

@[simp] theorem elemAdd_inodes (l : Msglist) (e : Msg) :
    (elemAdd l e).inodes = l.inodes ++ [e.inode] := by
  simp [elemAdd, Msglist.inodes]

theorem elemFind_some {n : Nat} (found : elemFind l i = some n) :
    ∃ e, l.msg[n]? = some e ∧ e ∈ l.msg ∧ e.inode = i := by
  obtain ⟨below, here, _⟩ := List.findIdx?_eq_some_iff_getElem.mp found
  refine ⟨l.msg[n], List.getElem?_eq_getElem below, List.getElem_mem below, ?_⟩
  simpa using here

theorem elemFind_none (missing : elemFind l i = none) : i ∉ l.inodes := by
  intro member
  obtain ⟨e, present, rfl⟩ := List.mem_map.mp member
  have nowhere := List.findIdx?_eq_none_iff.mp missing e present
  simp at nowhere

theorem elemDel_inodes (l : Msglist) (i : Ino) : (elemDel l i).inodes = l.inodes.erase i := by
  unfold elemDel Msglist.inodes
  induction l.msg with
  | nil => rfl
  | cons e rest ih =>
    by_cases same : e.inode = i
    · simp [same]
    · rw [List.eraseP_cons_of_neg (by simpa using same), List.map_cons, ih, List.map_cons,
        List.erase_cons_tail (by simpa using same)]

theorem mem_elemDel {j : Ino} (member : j ∈ l.inodes) (other : j ≠ i) :
    j ∈ (elemDel l i).inodes := by
  rw [elemDel_inodes]
  exact (List.mem_erase_of_ne other).mpr member

theorem elemDel_subset (l : Msglist) (i : Ino) : (elemDel l i).msg ⊆ l.msg :=
  List.eraseP_subset

private theorem perm_cons_eraseP {l : List Msg} {e : Msg} (nodup : (l.map Msg.inode).Nodup)
    (member : e ∈ l) : l.Perm (e :: l.eraseP fun x => x.inode = e.inode) := by
  induction l with
  | nil => cases member
  | cons x rest ih =>
    rw [List.map_cons, List.nodup_cons] at nodup
    rcases List.mem_cons.mp member with rfl | inside
    · rw [List.eraseP_cons_of_pos (by simp)]
    · have apart : x.inode ≠ e.inode := by
        intro same
        apply nodup.1
        rw [same]
        exact List.mem_map_of_mem inside
      rw [List.eraseP_cons_of_neg (by simpa using apart)]
      exact ((ih nodup.2 inside).cons x).trans (List.Perm.swap _ _ _)

theorem elemDel_perm {e : Msg} (nodup : l.inodes.Nodup) (member : e ∈ l.msg) :
    l.msg.Perm (e :: (elemDel l e.inode).msg) :=
  perm_cons_eraseP nodup member

end Lists

end IecUtils.Queue.Control
