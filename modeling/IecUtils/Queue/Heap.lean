/- Module: IecUtils/Queue/Heap
   source: quemngr/heapfunc.c
   digest: The binary heap of retry timers keeps exactly the nodes put into it, the least key first. -/

import IecUtils.Foundation.HeapOrder
import Mathlib.Data.Int.Order.Basic
import Mathlib.Data.List.Perm.Basic
import Mathlib.Tactic.SplitIfs

set_option autoImplicit false
set_option relaxedAutoImplicit false

namespace IecUtils.Queue.Heap

open IecUtils.Foundation.HeapOrder

/-- `struct timeval`. -/
structure Timeval where
  sec : Int
  usec : Int
  deriving DecidableEq

/-- `timercmp(a, b, <)`. -/
def Timeval.before (a b : Timeval) : Bool :=
  if a.sec = b.sec then a.usec < b.usec else a.sec < b.sec

/-- `struct heapnode`; its `inode` is an `int`, kept here as the 32 bits stored. -/
structure HeapNode where
  key : Timeval
  indque : Nat
  inode : UInt32
  deriving DecidableEq

/-- `struct heap`: the node at index `n` of the C array is at index `n - 1` here. -/
structure TimerHeap where
  maxsize : Nat
  nodes : List HeapNode
  deriving DecidableEq

def heapCreate (maxsize : Nat) : TimerHeap := ⟨maxsize, []⟩

def TimerHeap.nodecount (h : TimerHeap) : Nat := h.nodes.length

def heapnodeSwap (nodes : List HeapNode) (i j : Nat) : List HeapNode :=
  match nodes[i]?, nodes[j]? with
  | some a, some b => (nodes.set i b).set j a
  | _, _ => nodes

def keyBefore (nodes : List HeapNode) (i j : Nat) : Bool :=
  match nodes[i]?, nodes[j]? with
  | some a, some b => a.key.before b.key
  | _, _ => false

def heapMin (h : TimerHeap) : Option HeapNode := h.nodes[0]?

/-- The loop of `heap_insert`; `i` is the C index and halves at each turn. -/
def siftUp : Nat → Nat → List HeapNode → List HeapNode
  | 0, _, nodes => nodes
  | fuel + 1, i, nodes =>
      if i > 1 ∧ keyBefore nodes (i - 1) (i / 2 - 1) then
        siftUp fuel (i / 2) (heapnodeSwap nodes (i - 1) (i / 2 - 1))
      else nodes

def heapInsert (h : TimerHeap) (key : Timeval) (indque : Nat) (inode : UInt32) : TimerHeap :=
  let maxsize := if h.nodecount + 1 ≥ h.maxsize then h.maxsize * 2 else h.maxsize
  let nodes := h.nodes ++ [⟨key, indque, inode⟩]
  ⟨maxsize, siftUp nodes.length nodes.length nodes⟩

/-- The loop of `heap_heapify`, again on C indices. -/
def heapHeapify : Nat → Nat → List HeapNode → List HeapNode
  | 0, _, nodes => nodes
  | fuel + 1, index, nodes =>
      let left := 2 * index
      let right := 2 * index + 1
      let least := if left ≤ nodes.length ∧ keyBefore nodes (left - 1) (index - 1) then left
        else index
      let least := if right ≤ nodes.length ∧ keyBefore nodes (right - 1) (least - 1) then right
        else least
      if least = index then nodes
      else heapHeapify fuel least (heapnodeSwap nodes (index - 1) (least - 1))

/-- `heap_extract_min` on a heap that is not empty: the last node takes the place of
the first and sinks. -/
def heapExtractMin (h : TimerHeap) : TimerHeap :=
  match h.nodes with
  | [] => h
  | first :: rest =>
      let nodes := ((first :: rest).set 0 ((first :: rest).getLastD first)).dropLast
      { h with nodes := heapHeapify nodes.length 1 nodes }

section Contents

private theorem heapnodeSwap_perm (nodes : List HeapNode) (i j : Nat) :
    (heapnodeSwap nodes i j).Perm nodes := by
  unfold heapnodeSwap
  split
  · rename_i a b first second
    obtain ⟨hi, rfl⟩ := List.getElem?_eq_some_iff.mp first
    obtain ⟨hj, rfl⟩ := List.getElem?_eq_some_iff.mp second
    exact List.set_set_perm hi hj
  · exact List.Perm.refl _

private theorem siftUp_perm (fuel i : Nat) (nodes : List HeapNode) :
    (siftUp fuel i nodes).Perm nodes := by
  induction fuel generalizing i nodes with
  | zero => exact List.Perm.refl _
  | succ fuel ih =>
    unfold siftUp
    split
    · exact (ih _ _).trans (heapnodeSwap_perm _ _ _)
    · exact List.Perm.refl _

private theorem heapHeapify_perm (fuel index : Nat) (nodes : List HeapNode) :
    (heapHeapify fuel index nodes).Perm nodes := by
  induction fuel generalizing index nodes with
  | zero => exact List.Perm.refl _
  | succ fuel ih =>
    unfold heapHeapify
    simp only
    split_ifs
    all_goals first
      | exact List.Perm.refl _
      | exact (ih _ _).trans (heapnodeSwap_perm _ _ _)

theorem heapInsert_perm (h : TimerHeap) (key : Timeval) (indque : Nat) (inode : UInt32) :
    (heapInsert h key indque inode).nodes.Perm (⟨key, indque, inode⟩ :: h.nodes) :=
  (siftUp_perm _ _ _).trans (List.perm_append_singleton _ _)

theorem heapExtractMin_perm {h : TimerHeap} {node : HeapNode} (min : heapMin h = some node) :
    (node :: (heapExtractMin h).nodes).Perm h.nodes := by
  obtain ⟨maxsize, nodes⟩ := h
  cases nodes with
  | nil => cases min
  | cons first rest =>
    obtain rfl : first = node := Option.some.inj min
    simp only [heapExtractMin]
    refine List.Perm.cons _ ((heapHeapify_perm _ _ _).trans ?_)
    rcases List.eq_nil_or_concat rest with rfl | ⟨init, last, rfl⟩
    · exact List.Perm.refl _
    · rw [List.concat_eq_append]
      have last_eq : (first :: (init ++ [last])).getLastD first = last := by
        rw [← List.cons_append, List.getLastD_eq_getLast?, List.getLast?_concat]
        rfl
      have rest_eq : ((first :: (init ++ [last])).set 0 last).dropLast = last :: init := by
        rw [List.set_cons_zero, ← List.cons_append, List.dropLast_concat]
      rw [last_eq, rest_eq]
      exact (List.perm_append_singleton last init).symm

end Contents

section Order

def Timeval.micros (t : Timeval) : Int := t.sec * 1000000 + t.usec

/-- As `gettimeofday` and `clock_gettime` leave it. -/
def Timeval.normal (t : Timeval) : Prop := 0 ≤ t.usec ∧ t.usec < 1000000

theorem Timeval.before_iff {a b : Timeval} (first : a.normal) (second : b.normal) :
    a.before b = true ↔ a.micros < b.micros := by
  unfold normal at first second
  unfold before micros
  split
  · rename_i same
    rw [decide_eq_true_eq, same]
    omega
  · rename_i apart
    rw [decide_eq_true_eq]
    omega

def keyAt (nodes : List HeapNode) : Nat → Int
  | 0 => 0
  | i + 1 => (nodes[i]?).elim 0 fun n => n.key.micros

/-- Every key is one that the clock gives, and none is before that of its parent. -/
structure HeapOrdered (nodes : List HeapNode) : Prop where
  normal : ∀ n ∈ nodes, n.key.normal
  order : Ordered nodes.length (keyAt nodes)

variable {α : Type} [LinearOrder α] {rank : Timeval → α} {outside : α} {nodes : List HeapNode}

/-- What the node at an index of the C array is ordered by. -/
def rankAt (rank : Timeval → α) (outside : α) (nodes : List HeapNode) : Nat → α
  | 0 => outside
  | i + 1 => (nodes[i]?).elim outside fun n => rank n.key

theorem rankAt_micros (nodes : List HeapNode) : rankAt Timeval.micros 0 nodes = keyAt nodes := by
  funext i
  cases i with
  | zero => rfl
  | succ i => rfl

/-- `timercmp` compares the keys of the nodes as their ranks are ordered. -/
def Ranks (rank : Timeval → α) (nodes : List HeapNode) : Prop :=
  ∀ a ∈ nodes, ∀ b ∈ nodes, a.key.before b.key = true ↔ rank a.key < rank b.key

theorem ranks_micros (normal : ∀ n ∈ nodes, n.key.normal) : Ranks Timeval.micros nodes :=
  fun a memberA b memberB => Timeval.before_iff (normal a memberA) (normal b memberB)

theorem Ranks.perm {nodes' : List HeapNode} (ranks : Ranks rank nodes) (same : nodes'.Perm nodes) :
    Ranks rank nodes' :=
  fun a memberA b memberB => ranks a (same.subset memberA) b (same.subset memberB)

omit [LinearOrder α] in
private theorem rankAt_get (rank : Timeval → α) (outside : α) {i : Nat} (positive : 1 ≤ i) (within : i ≤ nodes.length) :
    ∃ node, nodes[i - 1]? = some node ∧ node ∈ nodes ∧
      rankAt rank outside nodes i = rank node.key := by
  obtain ⟨j, rfl⟩ : ∃ j, i = j + 1 := ⟨i - 1, by omega⟩
  have entry : nodes[j]? = some nodes[j] := List.getElem?_eq_getElem (by omega)
  refine ⟨nodes[j], entry, List.getElem_mem (by omega), ?_⟩
  rw [rankAt, entry]
  rfl

private theorem keyBefore_iff (outside : α) (ranks : Ranks rank nodes) {i j : Nat} (hi : 1 ≤ i)
    (hin : i ≤ nodes.length) (hj : 1 ≤ j) (hjn : j ≤ nodes.length) :
    keyBefore nodes (i - 1) (j - 1) = true ↔
      rankAt rank outside nodes i < rankAt rank outside nodes j := by
  obtain ⟨a, first, memberA, keyA⟩ := rankAt_get rank outside hi hin
  obtain ⟨b, second, memberB, keyB⟩ := rankAt_get rank outside hj hjn
  rw [keyBefore, first, second, keyA, keyB]
  exact ranks a memberA b memberB

theorem heapnodeSwap_length (i j : Nat) :
    (heapnodeSwap nodes i j).length = nodes.length := by
  unfold heapnodeSwap
  split
  · rw [List.length_set, List.length_set]
  · rfl

omit [LinearOrder α] in
private theorem rankAt_swap {i j : Nat} (hi : 1 ≤ i) (hin : i ≤ nodes.length) (hj : 1 ≤ j)
    (hjn : j ≤ nodes.length) :
    rankAt rank outside (heapnodeSwap nodes (i - 1) (j - 1)) =
      exchanged (rankAt rank outside nodes) i j := by
  obtain ⟨a, first, _, keyA⟩ := rankAt_get rank outside hi hin
  obtain ⟨b, second, _, keyB⟩ := rankAt_get rank outside hj hjn
  funext k
  rw [heapnodeSwap, first, second]
  cases k with
  | zero => rw [exchanged_other (by omega) (by omega)]; rfl
  | succ k =>
    dsimp only [rankAt]
    by_cases atJ : k + 1 = j
    · subst atJ
      rw [exchanged_right, keyA, Nat.add_sub_cancel,
        List.getElem?_set_self (by rw [List.length_set]; omega)]
      rfl
    · rw [List.getElem?_set_ne (by omega)]
      by_cases atI : k + 1 = i
      · subst atI
        rw [exchanged_left, keyB, Nat.add_sub_cancel, List.getElem?_set_self (by omega)]
        rfl
      · rw [List.getElem?_set_ne (by omega), exchanged_other atI atJ]
        rfl

theorem siftUp_order {fuel i : Nat} (ranks : Ranks rank nodes) (enough : i ≤ fuel)
    (positive : 1 ≤ i) (within : i ≤ nodes.length)
    (rising : Rising nodes.length (rankAt rank outside nodes) i) :
    Ordered (siftUp fuel i nodes).length (rankAt rank outside (siftUp fuel i nodes)) := by
  induction fuel generalizing i nodes with
  | zero => omega
  | succ fuel ih =>
    unfold siftUp
    split
    · rename_i moves
      obtain ⟨inner, before⟩ := moves
      rw [keyBefore_iff outside ranks positive within (by omega) (by omega)] at before
      have length : (heapnodeSwap nodes (i - 1) (i / 2 - 1)).length = nodes.length :=
        heapnodeSwap_length _ _
      refine ih (ranks.perm (heapnodeSwap_perm _ _ _)) (by omega) (by omega) (by omega) ?_
      rw [length, rankAt_swap positive within (by omega) (by omega)]
      exact rising.exchange within inner before
    · rename_i stays
      refine rising.done fun inner => ?_
      have settled := not_and.mp stays inner
      rw [keyBefore_iff outside ranks positive within (by omega) (by omega)] at settled
      exact not_lt.mp settled

/-- The position `heap_heapify` goes on with. -/
def leastOf (nodes : List HeapNode) (index : Nat) : Nat :=
  let left := 2 * index
  let right := 2 * index + 1
  let least := if left ≤ nodes.length ∧ keyBefore nodes (left - 1) (index - 1) then left else index
  if right ≤ nodes.length ∧ keyBefore nodes (right - 1) (least - 1) then right else least

theorem heapHeapify_succ (fuel index : Nat) :
    heapHeapify (fuel + 1) index nodes =
      if leastOf nodes index = index then nodes
      else heapHeapify fuel (leastOf nodes index)
        (heapnodeSwap nodes (index - 1) (leastOf nodes index - 1)) :=
  rfl

private theorem leastOf_least (outside : α) (ranks : Ranks rank nodes) {index : Nat} (positive : 1 ≤ index)
    (within : index ≤ nodes.length) :
    leastOf nodes index ≤ nodes.length ∧
      (leastOf nodes index = index ∨ leastOf nodes index / 2 = index ∧
        rankAt rank outside nodes (leastOf nodes index) < rankAt rank outside nodes index) ∧
      ∀ i, i ≤ nodes.length → i / 2 = index →
        rankAt rank outside nodes (leastOf nodes index) ≤ rankAt rank outside nodes i := by
  obtain ⟨least, first, bound, choice, left⟩ : ∃ least,
      (if 2 * index ≤ nodes.length ∧ keyBefore nodes (2 * index - 1) (index - 1) then 2 * index
        else index) = least ∧ (least = index ∨ least = 2 * index) ∧
      (least ≤ nodes.length ∧ rankAt rank outside nodes least ≤ rankAt rank outside nodes index ∧
        (least ≠ index → rankAt rank outside nodes least < rankAt rank outside nodes index)) ∧
      (2 * index ≤ nodes.length →
        rankAt rank outside nodes least ≤ rankAt rank outside nodes (2 * index)) := by
    refine ⟨_, rfl, ?_⟩
    split
    · rename_i moves
      obtain ⟨inside, before⟩ := moves
      rw [keyBefore_iff outside ranks (by omega) inside positive within] at before
      exact ⟨Or.inr rfl, ⟨inside, before.le, fun _ => before⟩, fun _ => le_refl _⟩
    · rename_i stays
      refine ⟨Or.inl rfl, ⟨within, le_refl _, fun other => absurd rfl other⟩, fun inside => ?_⟩
      have settled := not_and.mp stays inside
      rw [keyBefore_iff outside ranks (by omega) inside positive within] at settled
      exact not_lt.mp settled
  obtain ⟨inside, notAbove, strictly⟩ := choice
  have same : leastOf nodes index = if 2 * index + 1 ≤ nodes.length ∧
      keyBefore nodes (2 * index + 1 - 1) (least - 1) then 2 * index + 1 else least := by
    rw [← first]
    rfl
  rw [same]
  split
  · rename_i moves
    obtain ⟨room, before⟩ := moves
    rw [keyBefore_iff outside ranks (by omega) room (by omega) inside] at before
    refine ⟨room, Or.inr ⟨by omega, before.trans_le notAbove⟩, ?_⟩
    intro i below child
    obtain rfl | rfl : i = 2 * index ∨ i = 2 * index + 1 := by omega
    · exact before.le.trans (left below)
    · exact le_refl _
  · rename_i stays
    refine ⟨inside, ?_, ?_⟩
    · rcases bound with same | same
      · exact Or.inl same
      · exact Or.inr ⟨by omega, strictly (by omega)⟩
    · intro i below child
      obtain rfl | rfl : i = 2 * index ∨ i = 2 * index + 1 := by omega
      · exact left below
      · have settled := not_and.mp stays below
        rw [keyBefore_iff outside ranks (by omega) below (by omega) inside] at settled
        exact not_lt.mp settled

theorem heapHeapify_order {fuel index : Nat} (ranks : Ranks rank nodes)
    (enough : nodes.length < index + fuel) (positive : 1 ≤ index)
    (sinking : Sinking nodes.length (rankAt rank outside nodes) index) :
    Ordered (heapHeapify fuel index nodes).length
      (rankAt rank outside (heapHeapify fuel index nodes)) := by
  have childless (beyond : nodes.length < index) :
      Ordered nodes.length (rankAt rank outside nodes) := by
    refine sinking.done ?_
    intro i within child
    omega
  induction fuel generalizing index nodes with
  | zero => exact childless (by omega)
  | succ fuel ih =>
    rw [heapHeapify_succ]
    by_cases within : index ≤ nodes.length
    · obtain ⟨inside, choice, least⟩ := leastOf_least outside ranks positive within
      split
      · rename_i stays
        rw [stays] at least
        exact sinking.done least
      · rename_i moves
        obtain ⟨child, before⟩ := choice.resolve_left moves
        have length : (heapnodeSwap nodes (index - 1) (leastOf nodes index - 1)).length =
            nodes.length := heapnodeSwap_length _ _
        have next : Sinking (heapnodeSwap nodes (index - 1) (leastOf nodes index - 1)).length
            (rankAt rank outside (heapnodeSwap nodes (index - 1) (leastOf nodes index - 1)))
            (leastOf nodes index) := by
          rw [length, rankAt_swap positive within (by omega) inside]
          exact sinking.exchange positive inside child before least
        refine ih (ranks.perm (heapnodeSwap_perm _ _ _)) (by omega) (by omega) next ?_
        intro beyond
        omega
    · have last : leastOf nodes index = index := by
        unfold leastOf
        dsimp only
        rw [if_neg (by omega), if_neg (by omega)]
      rw [if_pos last]
      exact childless (by omega)

theorem heapMin_none {h : TimerHeap} (min : heapMin h = none) : h.nodes = [] := by
  have beyond := List.getElem?_eq_none_iff.mp min
  exact List.length_eq_zero_iff.mp (by omega)

theorem heapCreate_ordered (maxsize : Nat) : HeapOrdered (heapCreate maxsize).nodes :=
  ⟨fun _ member => absurd member List.not_mem_nil, fun i more within => by
    have none : i ≤ 0 := within
    omega⟩

theorem heapMin_rank {h : TimerHeap} (order : Ordered h.nodes.length (rankAt rank outside h.nodes))
    {node n : HeapNode} (min : heapMin h = some node) (member : n ∈ h.nodes) :
    rank node.key ≤ rank n.key := by
  obtain ⟨i, inside, rfl⟩ := List.mem_iff_getElem.mp member
  have least := order.least (show 1 ≤ i + 1 by omega) (by omega)
  have root : rankAt rank outside h.nodes 1 = rank node.key := by
    rw [rankAt, show h.nodes[0]? = some node from min]
    rfl
  have other : rankAt rank outside h.nodes (i + 1) = rank h.nodes[i].key := by
    rw [rankAt, List.getElem?_eq_getElem inside]
    rfl
  rwa [root, other] at least

theorem heapMin_least {h : TimerHeap} (ordered : HeapOrdered h.nodes) {node n : HeapNode}
    (min : heapMin h = some node) (member : n ∈ h.nodes) : node.key.micros ≤ n.key.micros := by
  have order := ordered.order
  rw [← rankAt_micros] at order
  exact heapMin_rank order min member

theorem heapInsert_rank {h : TimerHeap} (order : Ordered h.nodes.length (rankAt rank outside h.nodes))
    {key : Timeval} {indque : Nat} {inode : UInt32}
    (ranks : Ranks rank (⟨key, indque, inode⟩ :: h.nodes)) :
    Ordered (heapInsert h key indque inode).nodes.length
      (rankAt rank outside (heapInsert h key indque inode).nodes) := by
  have length : (h.nodes ++ [(⟨key, indque, inode⟩ : HeapNode)]).length = h.nodes.length + 1 :=
    List.length_append
  refine siftUp_order (ranks.perm (List.perm_append_singleton _ _)) (Nat.le_refl _) (by omega)
    (Nat.le_refl _) ?_
  rw [length]
  refine order.rising ?_
  intro i within
  cases i with
  | zero => rfl
  | succ i => rw [rankAt, rankAt, List.getElem?_append_left (by omega)]

theorem heapInsert_ordered {h : TimerHeap} (ordered : HeapOrdered h.nodes) {key : Timeval}
    (normal : key.normal) (indque : Nat) (inode : UInt32) :
    HeapOrdered (heapInsert h key indque inode).nodes := by
  have all : ∀ n ∈ (⟨key, indque, inode⟩ : HeapNode) :: h.nodes, n.key.normal :=
    List.forall_mem_cons.mpr ⟨normal, ordered.normal⟩
  have order := ordered.order
  rw [← rankAt_micros] at order
  refine ⟨?_, ?_⟩
  · intro n member
    exact all n ((heapInsert_perm h key indque inode).subset member)
  · rw [← rankAt_micros]
    exact heapInsert_rank order (ranks_micros all)

theorem heapExtractMin_rank {h : TimerHeap}
    (order : Ordered h.nodes.length (rankAt rank outside h.nodes)) (ranks : Ranks rank h.nodes) :
    Ordered (heapExtractMin h).nodes.length (rankAt rank outside (heapExtractMin h).nodes) := by
  cases min : heapMin h with
  | none =>
    have same : heapExtractMin h = h := by
      rw [heapExtractMin, heapMin_none min]
    rw [same]
    exact order
  | some node =>
    have contents := heapExtractMin_perm min
    obtain ⟨maxsize, nodes⟩ := h
    cases nodes with
    | nil => cases min
    | cons first rest =>
      generalize moved : ((first :: rest).set 0 ((first :: rest).getLastD first)).dropLast = nodes
      have result : (heapExtractMin ⟨maxsize, first :: rest⟩).nodes =
          heapHeapify nodes.length 1 nodes := by
        rw [← moved]
        rfl
      have length : nodes.length = rest.length := by
        rw [← moved, List.length_dropLast, List.length_set]
        rfl
      rw [result] at contents ⊢
      refine heapHeapify_order ?_ (by omega) (Nat.le_refl _) ?_
      · have kept := (heapHeapify_perm nodes.length 1 nodes).symm.subset
        intro a memberA b memberB
        exact ranks a (contents.subset (List.mem_cons_of_mem _ (kept memberA))) b
          (contents.subset (List.mem_cons_of_mem _ (kept memberB)))
      · refine order.sinking (by rw [length]; exact Nat.le_succ _) ?_
        intro i more within
        obtain ⟨j, rfl⟩ : ∃ j, i = j + 2 := ⟨i - 2, by omega⟩
        have entry : nodes[j + 1]? = (first :: rest)[j + 1]? := by
          rw [← moved, List.getElem?_dropLast,
            if_pos (by rw [List.length_set]; exact within.trans_eq length),
            List.getElem?_set_ne (by omega)]
        rw [rankAt, rankAt, entry]

theorem heapExtractMin_ordered {h : TimerHeap} (ordered : HeapOrdered h.nodes) :
    HeapOrdered (heapExtractMin h).nodes := by
  have order := ordered.order
  rw [← rankAt_micros] at order
  refine ⟨?_, ?_⟩
  · intro n member
    cases min : heapMin h with
    | none =>
      rw [heapExtractMin, heapMin_none min] at member
      exact ordered.normal n member
    | some node =>
      exact ordered.normal n ((heapExtractMin_perm min).subset (List.mem_cons_of_mem _ member))
  · rw [← rankAt_micros]
    exact heapExtractMin_rank order (ranks_micros ordered.normal)

end Order

end IecUtils.Queue.Heap
