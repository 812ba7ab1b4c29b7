/- Module: IecUtils/Queue/Shutdown
   source: sig_term of quemngr/quemngr.c, elem_add and elem_del of quemngr/quecontrol.c
   digest: The array behind a message list, and what the signal handler reads of it. -/

import IecUtils.Queue.Control

set_option autoImplicit false
set_option relaxedAutoImplicit false

namespace IecUtils.Queue.Shutdown

open IecUtils.Queue.Files
open IecUtils.Queue.Control

def arinit : Nat := 4
def argrow : Nat := 2

/-- `struct msglist` in memory. `msg` has `nmax` slots, each of them unwritten or with a
pointer to one of the entries ever allocated; no slots stand for a null pointer. In
`heap` a freed entry is `none`. -/
structure MsgArray where
  msg : List (Option Nat)
  total : Int
  heap : List (Option Msg)

/-- `quelist[ACT]` as `initqueue` leaves it. -/
def MsgArray.act : MsgArray := ⟨[], -1, []⟩

/-- What slot `n` leads to, if it leads to an entry that was not freed. -/
def MsgArray.entry (a : MsgArray) (n : Nat) : Option Msg :=
  a.msg[n]?.join.bind fun p => a.heap[p]?.join

/-- `elem_add` of a new entry. -/
def arrayAdd (a : MsgArray) (elem : Msg) : MsgArray :=
  let heap := a.heap ++ [some elem]
  if a.msg = [] then
    ⟨(List.replicate arinit none).set 0 (some a.heap.length), 1, heap⟩
  else
    let msg := if a.total ≥ a.msg.length then
      a.msg ++ List.replicate (argrow * a.msg.length - a.msg.length) none else a.msg
    ⟨msg.set a.total.toNat (some a.heap.length), a.total + 1, heap⟩

/-- `elem_del`: the slots behind the one found move down, and the last one stays. -/
def arrayDel (a : MsgArray) (inode : Ino) : MsgArray :=
  match (List.range a.total.toNat).find? fun n => (a.entry n).any fun e => e.inode = inode with
  | none => a
  | some n =>
      { msg := a.msg.take n ++ (a.msg.drop (n + 1)).take (a.total.toNat - (n + 1)) ++
          a.msg.drop (a.total.toNat - 1)
        total := a.total - 1
        heap := a.msg[n]?.join.elim a.heap fun p => a.heap.set p none }

/-- The loop of `sig_term` below index `n`: each index it reads, and the entry there. -/
def termLoop (a : MsgArray) : Nat → List (Nat × Option Msg)
  | 0 => []
  | n + 1 => (n, a.entry n) :: termLoop a n

/-- `sig_term` reads from `total` down to 0. -/
def sigTerm (a : MsgArray) : List (Nat × Option Msg) := termLoop a (a.total + 1).toNat

/-- The inodes whose links in `act` are removed. -/
def unlinked (a : MsgArray) : List Ino := (sigTerm a).filterMap fun r => r.2.map Msg.inode

inductive ListOp where
  | add (elem : Msg)
  | del (inode : Ino)

def ListOp.onArray (a : MsgArray) : ListOp → MsgArray
  | .add elem => arrayAdd a elem
  | .del inode => arrayDel a inode

def ListOp.onList (l : Msglist) : ListOp → Msglist
  | .add elem => elemAdd l elem
  | .del inode => elemDel l inode

def ListOp.adds : ListOp → Bool
  | .add _ => true
  | .del _ => false

/-- `sig_term` reads live entries below `total` only, and removes the links of the
messages in flight. -/
structure CleanShutdown (a : MsgArray) (act : Msglist) : Prop where
  inside : ∀ r ∈ sigTerm a, (r.1 : Int) < a.total ∧ r.2 ≠ none
  links : (unlinked a).Perm act.inodes

/-- The array stands for the list: pointers to the entries of the list, each to its own,
are in its first slots. -/
structure Represents (a : MsgArray) (pointers : List Nat) (l : List Msg) : Prop where
  slots : a.msg.take pointers.length = pointers.map some
  entries : pointers.map (fun p => a.heap[p]?.join) = l.map some
  nodup : pointers.Nodup
  total : a.msg ≠ [] → a.total = l.length
  null : a.msg = [] → a.total = -1 ∧ l = []

section Layout

variable {a : MsgArray} {pointers : List Nat} {l : List Msg}

theorem Represents.length (h : Represents a pointers l) : pointers.length = l.length := by
  have same := congrArg List.length h.entries
  rwa [List.length_map, List.length_map] at same

theorem Represents.toNat (h : Represents a pointers l) : a.total.toNat = l.length := by
  by_cases null : a.msg = []
  · obtain ⟨total, none⟩ := h.null null
    rw [total, none]
    rfl
  · rw [h.total null]
    rfl

theorem Represents.pointer_lt (h : Represents a pointers l) {p : Nat} (member : p ∈ pointers) :
    p < a.heap.length := by
  have listed : a.heap[p]?.join ∈ l.map some := by
    rw [← h.entries]
    exact List.mem_map_of_mem member
  obtain ⟨e, _, here⟩ := List.mem_map.mp listed
  by_contra beyond
  rw [List.getElem?_eq_none (by omega)] at here
  cases here

theorem Represents.slot (h : Represents a pointers l) {n : Nat} (below : n < l.length) :
    ∃ p, pointers[n]? = some p ∧ a.msg[n]? = some (some p) ∧ a.heap[p]?.join = l[n]? := by
  have inside : n < pointers.length := by
    rw [h.length]
    exact below
  obtain ⟨p, pointer⟩ : ∃ p, pointers[n]? = some p := ⟨_, List.getElem?_eq_getElem inside⟩
  refine ⟨p, pointer, ?_, ?_⟩
  · have same := congrArg (·[n]?) h.slots
    simp only [List.getElem?_take, if_pos inside, List.getElem?_map, pointer, Option.map_some]
      at same
    exact same
  · have same := congrArg (·[n]?) h.entries
    simp only [List.getElem?_map, pointer, Option.map_some, List.getElem?_eq_getElem below] at same
    rw [List.getElem?_eq_getElem below]
    exact Option.some.inj same

theorem Represents.entry (h : Represents a pointers l) {n : Nat} (below : n < l.length) :
    a.entry n = l[n]? := by
  obtain ⟨p, _, slot, value⟩ := h.slot below
  rw [MsgArray.entry, slot]
  exact value

theorem Represents.room (h : Represents a pointers l) : l.length ≤ a.msg.length := by
  have same := congrArg List.length h.slots
  rw [List.length_map, List.length_take, h.length] at same
  omega

private theorem take_set_append {slots : List (Option Nat)} {k : Nat} (v : Option Nat)
    (inside : k < slots.length) : (slots.set k v).take (k + 1) = slots.take k ++ [v] := by
  rw [List.take_add_one, List.take_set, List.set_eq_of_length_le (List.length_take_le _ _),
    List.getElem?_set_self inside]
  rfl

private theorem represents_add (h : Represents a pointers l) (elem : Msg) :
    Represents (arrayAdd a elem) (pointers ++ [a.heap.length]) (l ++ [elem]) := by
  have length := h.length
  have entries : (pointers ++ [a.heap.length]).map (fun p => (a.heap ++ [some elem])[p]?.join) =
      (l ++ [elem]).map some := by
    rw [List.map_append, List.map_append, ← h.entries]
    congr 1
    · apply List.map_congr_left
      intro p member
      rw [List.getElem?_append_left (h.pointer_lt member)]
    · simp
  have nodup : (pointers ++ [a.heap.length]).Nodup := by
    refine List.nodup_append.mpr ⟨h.nodup, List.nodup_singleton _, ?_⟩
    intro p member q new same
    have below := h.pointer_lt member
    rw [same, List.mem_singleton.mp new] at below
    omega
  unfold arrayAdd
  by_cases null : a.msg = []
  · obtain ⟨_, none⟩ := h.null null
    have empty : pointers = [] := by
      rw [none] at length
      exact List.length_eq_zero_iff.mp length
    simp only [if_pos null]
    refine ⟨?_, entries, nodup, ?_, ?_⟩
    · rw [empty]
      rfl
    · intro _
      rw [none]
      rfl
    · intro impossible
      cases impossible
  · have total := h.total null
    have room := h.room
    have positive := List.length_pos_iff.mpr null
    simp only [if_neg null]
    generalize grown : (if a.total ≥ a.msg.length then
      a.msg ++ List.replicate (argrow * a.msg.length - a.msg.length) none else a.msg) = slots
    have wide : l.length < slots.length ∧ slots.take l.length = a.msg.take l.length := by
      rw [← grown]
      split
      · rw [List.length_append, List.length_replicate, argrow, List.take_append_of_le_length room]
        exact ⟨by omega, rfl⟩
      · exact ⟨by omega, rfl⟩
    have here : a.total.toNat = l.length := h.toNat
    refine ⟨?_, entries, nodup, ?_, ?_⟩
    · rw [here, List.length_append, List.length_singleton, length, take_set_append _ wide.1, wide.2,
        ← length, h.slots, List.map_append]
      rfl
    · intro _
      rw [total, List.length_append]
      rfl
    · intro impossible
      have same := congrArg List.length impossible
      rw [List.length_set, List.length_nil] at same
      omega

private theorem find_range {n : Nat} (P : Msg → Bool) (same : ∀ k < n, a.entry k = l[k]?)
    (length : l.length = n) :
    (List.range n).find? (fun k => (a.entry k).any P) = l.findIdx? P := by
  have values (k : Nat) (below : k < l.length) : (a.entry k).any P = P l[k] := by
    rw [same k (length ▸ below), List.getElem?_eq_getElem below]
    rfl
  cases found : l.findIdx? P with
  | none =>
    refine List.find?_range_eq_none.mpr ?_
    intro k below
    have inside : k < l.length := length ▸ below
    rw [values k inside, List.findIdx?_eq_none_iff.mp found _ (List.getElem_mem inside)]
    rfl
  | some k =>
    obtain ⟨below, here, before⟩ := List.findIdx?_eq_some_iff_getElem.mp found
    refine List.find?_range_eq_some.mpr ⟨?_, List.mem_range.mpr (length ▸ below), ?_⟩
    · rw [values k below]
      exact here
    · intro j earlier
      rw [values j (by omega)]
      simpa using before j earlier

theorem Represents.found (h : Represents a pointers l) (P : Msg → Bool) :
    (List.range a.total.toNat).find? (fun n => (a.entry n).any P) = l.findIdx? P := by
  rw [h.toNat]
  exact find_range P (fun k => h.entry) rfl

private theorem represents_del (h : Represents a pointers l) (inode : Ino) :
    ∃ pointers', Represents (arrayDel a inode) pointers' (l.eraseP fun e => e.inode = inode) := by
  unfold arrayDel
  rw [h.found, h.toNat, List.eraseP_eq_eraseIdx]
  cases index : l.findIdx? (fun e => decide (e.inode = inode)) with
  | none => exact ⟨pointers, h⟩
  | some n =>
    obtain ⟨below, _⟩ := List.findIdx?_eq_some_iff_getElem.mp index
    obtain ⟨p, pointer, slot, _⟩ := h.slot below
    have length := h.length
    have room := h.room
    have inside : n < pointers.length := by omega
    have filled : a.msg ≠ [] := by
      rintro null
      rw [null] at room
      simp only [List.length_nil] at room
      omega
    have erased : (l.eraseIdx n).length = l.length - 1 := List.length_eraseIdx_of_lt below
    simp only [slot, Option.join_some, Option.elim_some]
    refine ⟨pointers.eraseIdx n, ?_, ?_, h.nodup.sublist (List.eraseIdx_sublist _ _), ?_, ?_⟩
    · -- what moves down is what was behind the slot
      have moved : (a.msg.take n ++ (a.msg.drop (n + 1)).take (l.length - (n + 1))).length =
          (pointers.eraseIdx n).length := by
        rw [List.length_append, List.length_take, List.length_take, List.length_drop,
          List.length_eraseIdx_of_lt inside]
        omega
      rw [List.take_left' moved, ← List.eraseIdx_map, ← h.slots, length,
        List.eraseIdx_eq_take_drop_succ, List.take_take, List.drop_take, Nat.min_eq_left (by omega)]
    · have others : (pointers.eraseIdx n).map (fun q => (a.heap.set p none)[q]?.join) =
          (pointers.eraseIdx n).map (fun q => a.heap[q]?.join) := by
        apply List.map_congr_left
        intro q member
        have apart : p ≠ q := by
          rintro rfl
          obtain ⟨k, other, here⟩ := List.mem_eraseIdx_iff_getElem?.mp member
          have same := (List.getElem?_inj inside h.nodup).mp (pointer.trans here.symm)
          omega
        rw [List.getElem?_set_ne apart]
      rw [others, ← List.eraseIdx_map, h.entries, List.eraseIdx_map]
    · intro _
      show a.total - 1 = _
      rw [h.total filled, erased]
      omega
    · intro impossible
      have same := congrArg List.length impossible
      rw [List.length_append, List.length_drop, List.length_nil] at same
      omega

end Layout

section Runs

variable {a : MsgArray} {l : Msglist}

theorem represents_op {pointers : List Nat} (h : Represents a pointers l.msg) (op : ListOp) :
    ∃ pointers', Represents (op.onArray a) pointers' (op.onList l).msg := by
  cases op with
  | add elem => exact ⟨_, represents_add h elem⟩
  | del inode => exact represents_del h inode

theorem represents_run {pointers : List Nat} (h : Represents a pointers l.msg) (ops : List ListOp) :
    ∃ pointers', Represents (ops.foldl ListOp.onArray a) pointers'
      (ops.foldl ListOp.onList l).msg := by
  induction ops generalizing a l pointers with
  | nil => exact ⟨pointers, h⟩
  | cons op rest ih =>
    obtain ⟨_, next⟩ := represents_op h op
    exact ih next

private theorem represents_act (conf send : Int) (timeout : Nat) :
    Represents MsgArray.act [] (⟨[], conf, send, timeout⟩ : Msglist).msg where
  slots := rfl
  entries := rfl
  nodup := List.nodup_nil
  total := fun filled => absurd rfl filled
  null := fun _ => ⟨rfl, rfl⟩

theorem arrayDel_total (a : MsgArray) (inode : Ino) :
    0 ≤ (arrayDel a inode).total ↔ 0 ≤ a.total := by
  unfold arrayDel
  split
  · rfl
  · rename_i n found
    have below := List.mem_range.mp (List.mem_of_find?_eq_some found)
    show 0 ≤ a.total - 1 ↔ 0 ≤ a.total
    omega

theorem total_run {pointers : List Nat} (h : Represents a pointers l.msg) (ops : List ListOp) :
    0 ≤ (ops.foldl ListOp.onArray a).total ↔ 0 ≤ a.total ∨ ∃ op ∈ ops, op.adds = true := by
  induction ops generalizing a l pointers with
  | nil => simp
  | cons op rest ih =>
    obtain ⟨_, next⟩ := represents_op h op
    rw [List.foldl_cons, ih next]
    simp only [List.mem_cons, exists_eq_or_imp]
    cases op with
    | add elem =>
      have counted : 0 ≤ (ListOp.onArray a (.add elem)).total := by
        rw [next.total]
        · exact Int.natCast_nonneg _
        · intro null
          have nothing := (next.null null).2
          exact absurd nothing (List.append_ne_nil_of_right_ne_nil _ (List.cons_ne_nil _ _))
      exact iff_of_true (Or.inl counted) (Or.inr (Or.inl rfl))
    | del inode =>
      rw [ListOp.onArray, arrayDel_total]
      simp [ListOp.adds]

theorem sigTerm_first (counted : 0 ≤ a.total) :
    ∃ rest, sigTerm a = (a.total.toNat, a.entry a.total.toNat) :: rest := by
  have bound : (a.total + 1).toNat = a.total.toNat + 1 := by omega
  rw [sigTerm, bound]
  exact ⟨_, rfl⟩

/-- The links are removed cleanly exactly if no message was ever in flight: the loop
starts one entry behind the last. -/
theorem sigTerm_clean_iff (ops : List ListOp) (conf send : Int) (timeout : Nat) :
    CleanShutdown (ops.foldl ListOp.onArray MsgArray.act)
        (ops.foldl ListOp.onList ⟨[], conf, send, timeout⟩) ↔
      ∀ op ∈ ops, op.adds = false := by
  have start := represents_act conf send timeout
  have counted := total_run start ops
  constructor
  · intro clean op member
    by_contra adds
    obtain ⟨rest, first⟩ := sigTerm_first (counted.mpr (Or.inr ⟨op, member, by simpa using adds⟩))
    have inside := (clean.inside _ (by rw [first]; exact List.mem_cons_self)).1
    dsimp only at inside
    omega
  · intro quiet
    have negative : ¬ 0 ≤ (ops.foldl ListOp.onArray MsgArray.act).total := by
      rw [counted]
      rintro (initial | ⟨op, member, adds⟩)
      · exact absurd initial (by decide)
      · rw [quiet op member] at adds
        cases adds
    obtain ⟨_, last⟩ := represents_run start ops
    have bound : ((ops.foldl ListOp.onArray MsgArray.act).total + 1).toNat = 0 := by omega
    have nothing : sigTerm (ops.foldl ListOp.onArray MsgArray.act) = [] := by
      rw [sigTerm, bound]
      rfl
    have empty : (ops.foldl ListOp.onList ⟨[], conf, send, timeout⟩ : Msglist).msg = [] := by
      have length := last.toNat
      exact List.length_eq_zero_iff.mp (by omega)
    refine ⟨?_, ?_⟩
    · intro r member
      rw [nothing] at member
      cases member
    · rw [unlinked, nothing, Msglist.inodes, empty]
      exact List.Perm.nil

/-- One message in flight: the handler follows the unwritten slot behind it first. -/
theorem one_in_flight_reads_past :
    let ops := [ListOp.add (elemNew 7 ⟨0, 0⟩ 1)]
    sigTerm (ops.foldl ListOp.onArray MsgArray.act) = [(1, none), (0, some (elemNew 7 ⟨0, 0⟩ 1))] ∧
      ¬ CleanShutdown (ops.foldl ListOp.onArray MsgArray.act)
        (ops.foldl ListOp.onList ⟨[], 0, 0, 0⟩) := by
  refine ⟨rfl, ?_⟩
  intro clean
  exact (clean.inside (1, none) List.mem_cons_self).2 rfl

end Runs

end IecUtils.Queue.Shutdown
