/- Module: IecUtils/Queue/MessageArray
   source: elem_add, elem_find and elem_del of quemngr/quecontrol.c
   digest: The array of a message list is accessed inside its bounds and behaves as the list. -/

import IecUtils.Foundation.Allocation
import IecUtils.Queue.Shutdown

set_option autoImplicit false
set_option relaxedAutoImplicit false

namespace IecUtils.Queue.MessageArray

open IecUtils.Foundation.Allocation
open IecUtils.Queue.Files
open IecUtils.Queue.Control (Msg Msglist)
open IecUtils.Queue.Shutdown

/-- `struct msglist`: `msg` is `NULL` or an array of pointers. A pointer is the index of
an entry in `heap`, where a freed entry has no value. -/
structure CMsglist where
  msg : Option (Cells Nat)
  nmax : Nat
  total : Int
  heap : Cells Msg

/-- `list->msg[i]` followed to its entry. -/
def CMsglist.elem (c : CMsglist) (i : Nat) : Option Msg := do
  let slots ← c.msg
  let p ← load slots i
  load c.heap p

def elemNew (c : CMsglist) (elem : Msg) : CMsglist × Nat :=
  ({ c with heap := c.heap ++ [some elem] }, c.heap.length)

/-- The first statement of `elem_add`. -/
def makeRoom (c : CMsglist) : CMsglist :=
  match c.msg with
  | none =>
      { c with
        msg := some (fresh arinit)
        nmax := arinit
        total := 0 }
  | some slots =>
      if c.total ≥ c.nmax then
        { c with
          msg := some (resize slots (argrow * c.nmax))
          nmax := c.nmax * argrow }
      else c

def elemAdd (c : CMsglist) (elem : Nat) : Option (CMsglist × Int) := do
  let c := makeRoom c
  let slots ← c.msg
  let slots ← if 0 ≤ c.total then store slots c.total.toNat elem else none
  let c := { c with msg := some slots, total := c.total + 1 }
  some (c, c.total)

/-- The loop of `elem_find` and `elem_del` from index `i` on. -/
def scan (c : CMsglist) (inode : Ino) (i : Nat) : Option (Option Nat) :=
  if _inside : (i : Int) < c.total then do
    let e ← c.elem i
    if e.inode = inode then some (some i) else scan c inode (i + 1)
  else some none
termination_by (c.total - i).toNat
decreasing_by omega

def elemFind (c : CMsglist) (inode : Ino) : Option Int := do
  let found ← scan c inode 0
  some (found.elim (-1) fun i => i)

def elemDel (c : CMsglist) (inode : Ino) : Option (CMsglist × Int) := do
  match ← scan c inode 0 with
  | none => some (c, 0)
  | some i =>
      let slots ← c.msg
      let p ← load slots i
      -- `xfree` of an entry that is still there
      let _ ← load c.heap p
      let slots ← moveDown slots i (c.total - (i + 1)).toNat
      some ({ c with msg := some slots, total := c.total - 1, heap := c.heap.set p none }, 1)

inductive Call where
  | add (elem : Msg)
  | find (inode : Ino)
  | del (inode : Ino)

def Call.adds : Call → Bool
  | .add _ => true
  | _ => false

/-- The call and what it returns; `elem_add` is always given a new entry. -/
def Call.perform (c : CMsglist) : Call → Option (CMsglist × Int)
  | .add elem =>
      let (c, p) := elemNew c elem
      elemAdd c p
  | .find inode => do
      let index ← elemFind c inode
      some (c, index)
  | .del inode => elemDel c inode

def Call.onList (l : Msglist) : Call → Msglist × Int
  | .add elem => (Control.elemAdd l elem, (Control.elemAdd l elem).total)
  | .find inode => (l, (Control.elemFind l inode).elim (-1) fun i => i)
  | .del inode => (Control.elemDel l inode, if inode ∈ l.inodes then 1 else 0)

/-- Calls one after the other and what they return; none if one of them goes outside the
array or reads what was not written or was freed. -/
def run (c : CMsglist) : List Call → Option (CMsglist × List Int)
  | [] => some (c, [])
  | call :: rest => do
      let (c, result) ← call.perform c
      let (c, results) ← run c rest
      some (c, result :: results)

def listRun (l : Msglist) : List Call → Msglist × List Int
  | [] => (l, [])
  | call :: rest =>
      let (l, result) := call.onList l
      let (l, results) := listRun l rest
      (l, result :: results)

/-- The array with its list: the entries in order, and the count inside the array. -/
structure Refines (c : CMsglist) (l : Msglist) : Prop where
  entries : (List.range c.total.toNat).map c.elem = l.msg.map some
  bounds : ∀ slots, c.msg = some slots → slots.length = c.nmax ∧ 0 ≤ c.total ∧ c.total ≤ c.nmax
  unchanged : ∀ inode, inode ∉ l.inodes → elemDel c inode = some (c, 0)

section Refinement

variable {c : CMsglist} {l : Msglist}

/-- The invariant of a run: before the first entry the list is empty, and afterwards the
array is there and stands for the list. -/
inductive Holds (c : CMsglist) (l : Msglist) : Prop
  | unused (null : c.msg = none) (initial : c.total = 0 ∨ c.total = -1) (empty : l.msg = [])
  | used (slots : Cells Nat) (there : c.msg = some slots) (size : slots.length = c.nmax)
      (positive : 0 < c.nmax) (pointers : List Nat)
      (represents : Represents ⟨slots, c.total, c.heap⟩ pointers l.msg)

private theorem total_of_used {slots : Cells Nat} {nmax : Nat} {total : Int} {heap : Cells Msg}
    {pointers : List Nat} (size : slots.length = nmax) (positive : 0 < nmax)
    (represents : Represents ⟨slots, total, heap⟩ pointers l.msg) :
    slots ≠ [] ∧ total = l.msg.length ∧ l.msg.length ≤ slots.length := by
  have filled : slots ≠ [] := by
    intro none
    rw [none, List.length_nil] at size
    omega
  exact ⟨filled, represents.total filled, represents.room⟩

theorem Holds.toNat (h : Holds c l) : c.total.toNat = l.msg.length := by
  cases h with
  | unused null initial empty =>
    rw [empty]
    rcases initial with same | same <;> rw [same] <;> rfl
  | used slots there size positive pointers represents => exact represents.toNat

theorem Holds.elem (h : Holds c l) {i : Nat} (inside : i < l.msg.length) :
    c.elem i = l.msg[i]? := by
  cases h with
  | unused null initial empty =>
    rw [empty] at inside
    cases inside
  | used slots there size positive pointers represents =>
    rw [CMsglist.elem, there]
    exact represents.entry inside

private theorem Holds.scan_from (h : Holds c l) (inode : Ino) {i : Nat}
    (inside : i ≤ l.msg.length) :
    scan c inode i =
      some (((l.msg.drop i).findIdx? fun e => e.inode = inode).map fun n => n + i) := by
  have total := h.toNat
  induction left : l.msg.length - i generalizing i with
  | zero =>
    rw [scan, dif_neg (by omega), List.drop_eq_nil_of_le (by omega)]
    rfl
  | succ left ih =>
    have below : i < l.msg.length := by omega
    rw [scan, dif_pos (by omega), h.elem below, List.getElem?_eq_getElem below,
      List.drop_eq_getElem_cons below, List.findIdx?_cons]
    show (if _ then _ else _) = _
    by_cases same : l.msg[i].inode = inode
    · rw [if_pos same, if_pos (by simpa using same)]
      simp
    · rw [if_neg same, if_neg (by simpa using same), ih (by omega) (by omega), Option.map_map]
      congr 2
      funext n
      show n + (i + 1) = n + 1 + i
      omega

theorem Holds.scan (h : Holds c l) (inode : Ino) :
    scan c inode 0 = some (Control.elemFind l inode) := by
  rw [h.scan_from inode (Nat.zero_le _), List.drop_zero]
  show some (Option.map id _) = _
  rw [Option.map_id]
  rfl

theorem Holds.elemFind (h : Holds c l) (inode : Ino) :
    elemFind c inode = some ((Control.elemFind l inode).elim (-1) fun i => (i : Int)) := by
  rw [MessageArray.elemFind, h.scan]
  rfl

private theorem makeRoom_used {slots : Cells Nat} {nmax count : Nat} (heap : Cells Msg)
    (size : slots.length = nmax) (positive : 0 < nmax) (room : count ≤ slots.length) :
    ∃ wide, makeRoom ⟨some slots, nmax, count, heap⟩ = ⟨some wide, wide.length, count, heap⟩ ∧
      count < wide.length ∧ wide = if (count : Int) ≥ slots.length then
        slots ++ List.replicate (argrow * slots.length - slots.length) none else slots := by
  rw [makeRoom]
  dsimp only
  by_cases full : (count : Int) ≥ slots.length
  · have longer := length_resize slots (argrow * nmax)
    refine ⟨resize slots (argrow * nmax), ?_, ?_, ?_⟩
    · rw [if_pos (by omega), longer, Nat.mul_comm]
    · rw [longer, argrow]
      omega
    · rw [if_pos full, resize, ← size, List.take_of_length_le (by rw [argrow]; omega)]
  · refine ⟨slots, ?_, by omega, (if_neg full).symm⟩
    rw [if_neg (by omega), size]

theorem Holds.elemAdd (h : Holds c l) (elem : Msg) :
    ∃ c', elemAdd (elemNew c elem).1 (elemNew c elem).2 =
        some (c', (Control.elemAdd l elem).total) ∧
      c'.msg ≠ none ∧ Holds c' (Control.elemAdd l elem) := by
  have length : (Control.elemAdd l elem).total = (l.msg.length : Int) + 1 := by
    show (((l.msg ++ [elem]).length : Nat) : Int) = _
    rw [List.length_append]
    rfl
  rw [length]
  unfold MessageArray.elemAdd
  cases h with
  | unused null initial empty =>
    have start : Represents ⟨[], -1, c.heap⟩ [] l.msg := by
      rw [empty]
      exact ⟨rfl, rfl, List.nodup_nil, fun filled => absurd rfl filled, fun _ => ⟨rfl, rfl⟩⟩
    obtain ⟨pointers, represents⟩ := represents_op start (.add elem)
    have made : makeRoom (elemNew c elem).1 =
        ⟨some (fresh arinit), arinit, 0, c.heap ++ [some elem]⟩ := by
      rw [makeRoom, elemNew]
      dsimp only
      rw [null]
    rw [made, empty]
    refine ⟨_, rfl, ?_, .used _ rfl rfl (Nat.succ_pos _) pointers represents⟩
    intro none
    cases none
  | used slots there size positive pointers represents =>
    obtain ⟨pointers', represents'⟩ := represents_op represents (.add elem)
    obtain ⟨filled, total, room⟩ := total_of_used size positive represents
    obtain ⟨wide, made, more, grown⟩ := makeRoom_used (c.heap ++ [some elem]) size positive room
    rw [← total] at made grown
    have start : (elemNew c elem).1 = ⟨some slots, c.nmax, c.total, c.heap ++ [some elem]⟩ := by
      rw [elemNew, there]
    have onArray : arrayAdd ⟨slots, c.total, c.heap⟩ elem =
        ⟨wide.set c.total.toNat (some c.heap.length), c.total + 1, c.heap ++ [some elem]⟩ := by
      rw [arrayAdd, if_neg filled, grown]
    rw [start, made]
    refine ⟨⟨some (wide.set c.total.toNat (some c.heap.length)), wide.length, c.total + 1,
      c.heap ++ [some elem]⟩, ?_, Option.some_ne_none _,
      .used _ rfl List.length_set ?_ pointers' ?_⟩
    · dsimp only
      rw [Option.bind_eq_bind, Option.bind_some, if_pos (by omega), store_eq (by omega), ← total]
      rfl
    · dsimp only
      omega
    · rw [← onArray]
      exact represents'

theorem Holds.absent (h : Holds c l) {inode : Ino} (missing : inode ∉ l.inodes) :
    elemDel c inode = some (c, 0) := by
  have nowhere : Control.elemFind l inode = none := by
    cases found : Control.elemFind l inode with
    | none => rfl
    | some n =>
      obtain ⟨e, _, member, rfl⟩ := Control.elemFind_some found
      exact absurd (List.mem_map_of_mem member) missing
  rw [MessageArray.elemDel, h.scan, nowhere]
  rfl

/-- `elem_del` frees an entry that is there, moves slots inside the array and keeps the
invariant. -/
theorem Holds.elemDel (h : Holds c l) {inode : Ino} (present : inode ∈ l.inodes) :
    ∃ c', elemDel c inode = some (c', 1) ∧ (c'.msg = none ↔ c.msg = none) ∧
      Holds c' (Control.elemDel l inode) := by
  cases found : Control.elemFind l inode with
  | none => exact absurd present (Control.elemFind_none found)
  | some n =>
    have below : n < l.msg.length := by
      obtain ⟨e, here, _⟩ := Control.elemFind_some found
      exact (List.getElem?_eq_some_iff.mp here).1
    have scanned := h.scan inode
    cases h with
    | unused null initial empty =>
      rw [empty] at below
      cases below
    | used slots there size positive pointers represents =>
      obtain ⟨pointers', represents'⟩ := represents_op represents (.del inode)
      obtain ⟨p, _, slot, entry⟩ := represents.slot below
      dsimp only at slot entry
      obtain ⟨filled, total, room⟩ := total_of_used size positive represents
      have pointer : load slots n = some p := by
        rw [load, slot]
        rfl
      have live : load c.heap p = some l.msg[n] := by
        rw [load, entry, List.getElem?_eq_getElem below]
      have count : (c.total - (n + 1)).toNat = l.msg.length - (n + 1) := by omega
      obtain ⟨rest, moved, shape⟩ : ∃ rest,
          moveDown slots n (l.msg.length - (n + 1)) = some rest ∧
          rest = slots.take n ++ (slots.drop (n + 1)).take (l.msg.length - (n + 1)) ++
            slots.drop (n + (l.msg.length - (n + 1))) :=
        ⟨_, moveDown_eq (by omega), rfl⟩
      have onArray : arrayDel ⟨slots, c.total, c.heap⟩ inode =
          ⟨rest, c.total - 1, c.heap.set p none⟩ := by
        have index : l.msg.findIdx? (fun e => decide (e.inode = inode)) = some n := found
        have last : n + (l.msg.length - (n + 1)) = l.msg.length - 1 := by omega
        have length : c.total.toNat = l.msg.length := represents.toNat
        rw [arrayDel, represents.found, index]
        dsimp only
        rw [slot, length, shape, last]
        rfl
      refine ⟨⟨some rest, c.nmax, c.total - 1, c.heap.set p none⟩, ?_, ?_,
        .used rest rfl ?_ positive pointers' ?_⟩
      · rw [MessageArray.elemDel, scanned, found, Option.bind_eq_bind, Option.bind_some]
        dsimp only
        simp only [there, pointer, live, count, moved, Option.bind_eq_bind, Option.bind_some]
      · rw [there]
        exact iff_of_false (Option.some_ne_none _) (Option.some_ne_none _)
      · rw [← size, shape, List.length_append, List.length_append, List.length_take,
          List.length_take, List.length_drop, List.length_drop]
        omega
      · have next : Represents (arrayDel ⟨slots, c.total, c.heap⟩ inode) pointers' _ := represents'
        rw [onArray] at next
        exact next

end Refinement

section Runs

variable {c : CMsglist} {l : Msglist}

theorem Holds.perform (h : Holds c l) (call : Call) :
    ∃ c', call.perform c = some (c', (call.onList l).2) ∧ Holds c' (call.onList l).1 ∧
      (c'.msg ≠ none ↔ c.msg ≠ none ∨ call.adds = true) := by
  cases call with
  | add elem =>
    obtain ⟨c', added, there, kept⟩ := h.elemAdd elem
    exact ⟨c', added, kept, iff_of_true there (Or.inr rfl)⟩
  | find inode =>
    refine ⟨c, ?_, h, ?_⟩
    · rw [Call.perform, h.elemFind]
      rfl
    · simp [Call.adds]
  | del inode =>
    rw [Call.onList]
    by_cases present : inode ∈ l.inodes
    · obtain ⟨c', deleted, same, kept⟩ := h.elemDel present
      refine ⟨c', ?_, kept, ?_⟩
      · rw [if_pos present]
        exact deleted
      · rw [Ne, same]
        simp [Call.adds]
    · have kept : Control.elemDel l inode = l := by
        rw [Control.elemDel, List.eraseP_of_forall_not]
        intro e member found
        apply present
        rw [← of_decide_eq_true found]
        exact List.mem_map_of_mem member
      refine ⟨c, ?_, ?_, ?_⟩
      · rw [if_neg present]
        exact h.absent present
      · rw [kept]
        exact h
      · simp [Call.adds]

theorem Holds.run (h : Holds c l) (calls : List Call) :
    ∃ c', run c calls = some (c', (listRun l calls).2) ∧ Holds c' (listRun l calls).1 ∧
      (c'.msg ≠ none ↔ c.msg ≠ none ∨ ∃ call ∈ calls, call.adds = true) := by
  induction calls generalizing c l with
  | nil => exact ⟨c, rfl, h, by simp⟩
  | cons call rest ih =>
    obtain ⟨next, performed, kept, used⟩ := h.perform call
    obtain ⟨last, ran, holds, reached⟩ := ih kept
    refine ⟨last, ?_, holds, ?_⟩
    · rw [MessageArray.run, performed, Option.bind_eq_bind, Option.bind_some]
      dsimp only
      rw [ran]
      rfl
    · rw [reached, used, or_assoc]
      simp

theorem Holds.refines (h : Holds c l) : Refines c l := by
  refine ⟨?_, ?_, fun inode missing => h.absent missing⟩
  · rw [h.toNat]
    apply List.ext_getElem
    · rw [List.length_map, List.length_map, List.length_range]
    · intro i inside _
      rw [List.length_map, List.length_range] at inside
      rw [List.getElem_map, List.getElem_range, List.getElem_map, h.elem inside,
        List.getElem?_eq_getElem inside]
  · intro slots there
    cases h with
    | unused null initial empty =>
      rw [null] at there
      cases there
    | used slots' there' size positive pointers represents =>
      obtain rfl : slots' = slots := Option.some.inj (there'.symm.trans there)
      obtain ⟨_, total, room⟩ := total_of_used size positive represents
      omega

/-- From a list without an array on, the calls return what they do on a list, and stay
inside the array. -/
theorem run_refines (nmax : Nat) (total : Int) (heap : Cells Msg) (conf send : Int) (timeout : Nat)
    (initial : total = 0 ∨ total = -1) (calls : List Call) :
    ∃ c, run ⟨none, nmax, total, heap⟩ calls =
        some (c, (listRun ⟨[], conf, send, timeout⟩ calls).2) ∧
      Refines c (listRun ⟨[], conf, send, timeout⟩ calls).1 ∧
      (c.msg ≠ none ↔ ∃ call ∈ calls, call.adds = true) := by
  have start : Holds ⟨none, nmax, total, heap⟩ ⟨[], conf, send, timeout⟩ := .unused rfl initial rfl
  obtain ⟨c, ran, holds, used⟩ := start.run calls
  refine ⟨c, ran, holds.refines, ?_⟩
  rw [used]
  exact or_iff_right fun there => there rfl

/-- Two messages in `act`, the first of them taken out. -/
theorem run_refines_act :
    let calls := [Call.add (Control.elemNew 7 ⟨0, 0⟩ 1), .add (Control.elemNew 8 ⟨0, 0⟩ 1), .del 7]
    ∃ c, run ⟨none, 0, -1, []⟩ calls = some (c, (listRun ⟨[], 0, 0, 0⟩ calls).2) ∧
      Refines c (listRun ⟨[], 0, 0, 0⟩ calls).1 ∧
      (c.msg ≠ none ↔ ∃ call ∈ calls, call.adds = true) :=
  run_refines 0 (-1) [] 0 0 0 (Or.inr rfl) _

end Runs

end IecUtils.Queue.MessageArray
