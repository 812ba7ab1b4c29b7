/- Module: IecUtils/Queue/HeapArray
   source: quemngr/heapfunc.c
   digest: The C array of the timer heap is accessed inside its bounds and is a priority queue. -/

import IecUtils.Foundation.Allocation
import IecUtils.Queue.Heap
import Mathlib.Data.Int.Order.Basic
import Mathlib.Data.Prod.Lex

set_option autoImplicit false
set_option relaxedAutoImplicit false

namespace IecUtils.Queue.HeapArray

open IecUtils.Foundation.Allocation
open IecUtils.Foundation.HeapOrder
open IecUtils.Queue.Heap
  (Timeval HeapNode TimerHeap Ranks rankAt leastOf heapHeapify_succ heapnodeSwap_length)

/-- `struct heap` in memory. -/
structure CHeap where
  maxsize : Nat
  nodecount : Nat
  nodes : Cells HeapNode

/-- `xmalloc` and `xresize` end the process instead of failing. -/
def heapCreate (maxsize : Nat) : CHeap := ⟨maxsize, 0, fresh (maxsize + 1)⟩

/-- `h->nodes[i]`. -/
def CHeap.read (h : CHeap) (i : Nat) : Option HeapNode := load h.nodes i

/-- An assignment to `h->nodes[i]`. -/
def CHeap.write (h : CHeap) (i : Nat) (node : HeapNode) : Option CHeap := do
  let nodes ← store h.nodes i node
  some { h with nodes := nodes }

def heapnodeSwap (h : CHeap) (a b : Nat) : Option CHeap := do
  let temp ← h.read a
  let other ← h.read b
  let h ← h.write a other
  h.write b temp

/-- The index `heap_min` returns the address of, or `NULL`. -/
def heapMin (h : CHeap) : Option Nat := if h.nodecount = 0 then none else some 1

/-- `timercmp(&h->nodes[i].key, &h->nodes[j].key, <)`. -/
def keyBefore (h : CHeap) (i j : Nat) : Option Bool := do
  let a ← h.read i
  let b ← h.read j
  some (a.key.before b.key)

/-- The loop of `heap_insert`. -/
def siftUp (h : CHeap) (i : Nat) : Option CHeap :=
  if inner : 1 < i then do
    if ← keyBefore h i (i / 2) then
      let h ← heapnodeSwap h i (i / 2)
      siftUp h (i / 2)
    else some h
  else some h
termination_by i
decreasing_by omega

/-- The first statement of `heap_insert`. -/
def grow (h : CHeap) : CHeap :=
  if h.nodecount + 1 ≥ h.maxsize then
    { h with
      maxsize := h.maxsize * 2
      nodes := resize h.nodes (h.maxsize * 2) }
  else h

def heapInsert (h : CHeap) (key : Timeval) (indque : Nat) (inode : UInt32) : Option CHeap := do
  let h := grow h
  let h := { h with nodecount := h.nodecount + 1 }
  let h ← h.write h.nodecount ⟨key, indque, inode⟩
  siftUp h h.nodecount

/-- `if (child <= h->nodecount && timercmp(..)) least = child`: without a child no key is read. -/
def lesser (h : CHeap) (child least : Nat) : Option Nat :=
  if child ≤ h.nodecount then do
    if ← keyBefore h child least then some child else some least
  else some least

/-- The position one turn of `heap_heapify` ends up with. -/
def leastChild (h : CHeap) (index : Nat) : Option Nat := do
  let least ← lesser h (2 * index) index
  lesser h (2 * index + 1) least

section Turns

variable {h h' : CHeap} {index child least result : Nat}

private theorem lesser_eq (chosen : lesser h child least = some result) :
    result = least ∨ result = child ∧ child ≤ h.nodecount := by
  unfold lesser at chosen
  split at chosen
  · rename_i inside
    obtain ⟨before, _, taken⟩ := Option.bind_eq_some_iff.mp chosen
    cases before with
    | false => exact Or.inl (Option.some.inj taken).symm
    | true => exact Or.inr ⟨(Option.some.inj taken).symm, inside⟩
  · exact Or.inl (Option.some.inj chosen).symm

theorem leastChild_bound (chosen : leastChild h index = some result) (other : result ≠ index) :
    index < result ∧ result ≤ h.nodecount := by
  obtain ⟨least, first, second⟩ := Option.bind_eq_some_iff.mp chosen
  rcases lesser_eq second with rfl | ⟨rfl, inside⟩
  · rcases lesser_eq first with rfl | ⟨rfl, inside⟩
    · exact absurd rfl other
    · omega
  · omega

theorem heapnodeSwap_nodecount {a b : Nat} (swapped : heapnodeSwap h a b = some h') :
    h'.nodecount = h.nodecount := by
  have written {h h' : CHeap} {i : Nat} {node : HeapNode} (done : h.write i node = some h') :
      h'.nodecount = h.nodecount := by
    obtain ⟨nodes, _, made⟩ := Option.bind_eq_some_iff.mp done
    rw [← Option.some.inj made]
  unfold heapnodeSwap at swapped
  obtain ⟨temp, _, swapped⟩ := Option.bind_eq_some_iff.mp swapped
  obtain ⟨other, _, swapped⟩ := Option.bind_eq_some_iff.mp swapped
  obtain ⟨between, first, second⟩ := Option.bind_eq_some_iff.mp swapped
  rw [written second, written first]

end Turns

/-- `heap_heapify`: the index moves down to a child at each turn of the loop. -/
def heapHeapify (h : CHeap) (index : Nat) : Option CHeap :=
  match _chosen : leastChild h index with
  | none => none
  | some least =>
      if _same : least = index then some h
      else
        match _swapped : heapnodeSwap h index least with
        | none => none
        | some next => heapHeapify next least
termination_by h.nodecount - index
decreasing_by
  have bound := leastChild_bound _chosen _same
  have count := heapnodeSwap_nodecount _swapped
  omega

def heapExtractMin (h : CHeap) : Option (HeapNode × CHeap) :=
  if h.nodecount = 0 then some (⟨⟨0, 0⟩, 0, 0⟩, h)
  else do
    let minnode ← h.read 1
    let last ← h.read h.nodecount
    let h ← h.write 1 last
    let h ← heapHeapify { h with nodecount := h.nodecount - 1 } 1
    some (minnode, h)

/-- Cell `i + 1` of an array of `size` cells has node `i` of the list. -/
structure Stores (c : CHeap) (nodes : List HeapNode) (maxsize size : Nat) : Prop where
  maxsize : c.maxsize = maxsize
  size : c.nodes.length = size
  count : c.nodecount = nodes.length
  cells : Filled c.nodes 1 nodes

section Refinement

variable {c : CHeap} {nodes : List HeapNode} {maxsize size : Nat}

theorem Stores.read (stores : Stores c nodes maxsize size) {i : Nat} (positive : 1 ≤ i)
    (within : i ≤ nodes.length) :
    ∃ node, c.read i = some node ∧ nodes[i - 1]? = some node := by
  obtain ⟨j, rfl⟩ : ∃ j, i = j + 1 := ⟨i - 1, by omega⟩
  exact stores.cells.get (by omega)

theorem write_node {i : Nat} (inside : i < c.nodes.length) (node : HeapNode) :
    c.write i node = some { c with nodes := c.nodes.set i (some node) } := by
  rw [CHeap.write, store_eq inside]
  rfl

private theorem Stores.keyBefore (stores : Stores c nodes maxsize size) {i j : Nat} (hi : 1 ≤ i)
    (hin : i ≤ nodes.length) (hj : 1 ≤ j) (hjn : j ≤ nodes.length) :
    keyBefore c i j = some (Heap.keyBefore nodes (i - 1) (j - 1)) := by
  obtain ⟨a, readA, entryA⟩ := stores.read hi hin
  obtain ⟨b, readB, entryB⟩ := stores.read hj hjn
  rw [HeapArray.keyBefore, readA, readB, Heap.keyBefore, entryA, entryB]
  rfl

private theorem Stores.swap (stores : Stores c nodes maxsize size) {i j : Nat} (hi : 1 ≤ i)
    (hin : i ≤ nodes.length) (hj : 1 ≤ j) (hjn : j ≤ nodes.length) :
    ∃ c', heapnodeSwap c i j = some c' ∧
      Stores c' (Heap.heapnodeSwap nodes (i - 1) (j - 1)) maxsize size := by
  obtain ⟨a, readA, entryA⟩ := stores.read hi hin
  obtain ⟨b, readB, entryB⟩ := stores.read hj hjn
  obtain ⟨k, rfl⟩ : ∃ k, i = k + 1 := ⟨i - 1, by omega⟩
  obtain ⟨l, rfl⟩ : ∃ l, j = l + 1 := ⟨j - 1, by omega⟩
  have first := stores.cells.set (show k < nodes.length by omega) b
  have both := first.set (show l < (nodes.set k b).length by rw [List.length_set]; omega) a
  rw [Nat.add_sub_cancel] at entryA entryB
  rw [Nat.add_sub_cancel, Nat.add_sub_cancel, Heap.heapnodeSwap, entryA, entryB]
  refine ⟨{ c with nodes := (c.nodes.set (k + 1) (some b)).set (l + 1) (some a) }, ?_,
    stores.maxsize, ?_, ?_, both⟩
  · rw [heapnodeSwap, readA, readB]
    show (c.write (k + 1) b).bind (fun h => h.write (l + 1) a) = _
    rw [write_node (load_lt readA), Option.bind_some]
    exact write_node (by rw [List.length_set]; exact load_lt readB) a
  · rw [List.length_set, List.length_set]
    exact stores.size
  · rw [List.length_set, List.length_set]
    exact stores.count

private theorem Stores.siftUp (stores : Stores c nodes maxsize size) {fuel i : Nat}
    (enough : i ≤ fuel) (positive : 1 ≤ i) (within : i ≤ nodes.length) :
    ∃ c', siftUp c i = some c' ∧ Stores c' (Heap.siftUp fuel i nodes) maxsize size := by
  induction fuel generalizing i c nodes with
  | zero => omega
  | succ fuel ih =>
    rw [HeapArray.siftUp, Heap.siftUp]
    by_cases inner : 1 < i
    · rw [dif_pos inner, stores.keyBefore positive within (by omega) (by omega),
        Option.bind_eq_bind, Option.bind_some]
      cases before : Heap.keyBefore nodes (i - 1) (i / 2 - 1) with
      | false =>
        rw [if_neg (by simp), if_neg (by simp)]
        exact ⟨c, rfl, stores⟩
      | true =>
        have above : 1 ≤ i / 2 := by omega
        obtain ⟨next, swapped, kept⟩ := stores.swap positive within above (by omega)
        rw [if_pos rfl, if_pos ⟨inner, rfl⟩, swapped]
        refine ih kept (by omega) (by omega) ?_
        rw [heapnodeSwap_length]
        omega
    · rw [dif_neg inner, if_neg (fun both => inner both.1)]
      exact ⟨c, rfl, stores⟩

private theorem Stores.lesser (stores : Stores c nodes maxsize size) {child least : Nat}
    (positive : 1 ≤ child) (inside : child ≤ nodes.length → 1 ≤ least ∧ least ≤ nodes.length) :
    lesser c child least = some (if child ≤ nodes.length ∧
      Heap.keyBefore nodes (child - 1) (least - 1) then child else least) := by
  unfold HeapArray.lesser
  rw [stores.count]
  by_cases within : child ≤ nodes.length
  · obtain ⟨low, high⟩ := inside within
    rw [if_pos within, stores.keyBefore positive within low high, Option.bind_eq_bind,
      Option.bind_some]
    cases before : Heap.keyBefore nodes (child - 1) (least - 1) with
    | false => rw [if_neg (by simp), if_neg (by simp)]
    | true => rw [if_pos rfl, if_pos ⟨within, rfl⟩]
  · rw [if_neg within, if_neg (fun both => within both.1)]

private theorem Stores.leastChild (stores : Stores c nodes maxsize size) {index : Nat}
    (positive : 1 ≤ index) : leastChild c index = some (leastOf nodes index) := by
  rw [HeapArray.leastChild, stores.lesser (by omega) (fun _ => by omega), Option.bind_eq_bind,
    Option.bind_some, stores.lesser (by omega)]
  · rfl
  · intro within
    split <;> omega

theorem heapHeapify_eq {index least : Nat} (chosen : leastChild c index = some least) :
    heapHeapify c index = if least = index then some c
      else (heapnodeSwap c index least).bind fun next => heapHeapify next least := by
  rw [heapHeapify]
  split
  · rename_i missing
    rw [chosen] at missing
    cases missing
  · rename_i found here
    obtain rfl : least = found := Option.some.inj (chosen.symm.trans here)
    split_ifs
    · rfl
    · split
      · rename_i missing
        rw [missing, Option.bind_none]
      · rename_i next swapped
        rw [swapped, Option.bind_some]

private theorem Stores.heapHeapify (stores : Stores c nodes maxsize size) {fuel index : Nat}
    (enough : nodes.length < index + fuel) (positive : 1 ≤ index) :
    ∃ c', heapHeapify c index = some c' ∧
      Stores c' (Heap.heapHeapify fuel index nodes) maxsize size := by
  induction fuel generalizing index c nodes with
  | zero =>
    have chosen := stores.leastChild positive
    have last : leastOf nodes index = index := by
      by_contra moves
      have bound := leastChild_bound chosen moves
      rw [stores.count] at bound
      omega
    rw [heapHeapify_eq chosen, if_pos last]
    exact ⟨c, rfl, stores⟩
  | succ fuel ih =>
    have chosen := stores.leastChild positive
    rw [heapHeapify_eq chosen, heapHeapify_succ]
    by_cases stays : leastOf nodes index = index
    · rw [if_pos stays, if_pos stays]
      exact ⟨c, rfl, stores⟩
    · have bound := leastChild_bound chosen stays
      rw [stores.count] at bound
      obtain ⟨next, swapped, kept⟩ := stores.swap positive (by omega) (by omega) bound.2
      rw [if_neg stays, if_neg stays, swapped, Option.bind_some]
      refine ih kept ?_ (by omega)
      rw [heapnodeSwap_length]
      omega

/-- The sizes before and after the first statement of `heap_insert`, with so many nodes. -/
structure Grows (count maxsize size maxsize' size' : Nat) : Prop where
  room : count + 1 < maxsize'
  fits : maxsize' ≤ size'
  sizes : maxsize' = maxsize ∧ size' = size ∨
    maxsize' = maxsize * 2 ∧ size' = maxsize * 2 ∧ count + 1 = maxsize

private theorem Stores.grow (stores : Stores c nodes maxsize size) (room : nodes.length < maxsize)
    (fits : maxsize ≤ size) :
    ∃ maxsize' size', Stores (grow c) nodes maxsize' size' ∧
      Grows nodes.length maxsize size maxsize' size' := by
  unfold HeapArray.grow
  rw [stores.count, stores.maxsize]
  by_cases full : nodes.length + 1 ≥ maxsize
  · have length := stores.size
    rw [if_pos full]
    refine ⟨maxsize * 2, maxsize * 2, ⟨rfl, length_resize _ _, rfl, ?_⟩, ?_⟩
    · exact stores.cells.resize (by omega)
    · exact ⟨by omega, Nat.le_refl _, Or.inr ⟨rfl, rfl, by omega⟩⟩
  · rw [if_neg full]
    exact ⟨maxsize, size, stores, by omega, fits, Or.inl ⟨rfl, rfl⟩⟩

private theorem Stores.append (stores : Stores c nodes maxsize size)
    (room : nodes.length + 1 < size) (node : HeapNode) :
    ∃ c', CHeap.write { c with nodecount := c.nodecount + 1 } (c.nodecount + 1) node = some c' ∧
      Stores c' (nodes ++ [node]) maxsize size := by
  have length := stores.size
  rw [stores.count]
  refine ⟨_, write_node (by show _ < c.nodes.length; omega) node, stores.maxsize, ?_, ?_, ?_⟩
  · rw [List.length_set]
    exact length
  · rw [List.length_append]
    rfl
  · exact stores.cells.append (by omega) node

theorem Stores.heapInsert (stores : Stores c nodes maxsize size) (room : nodes.length < maxsize)
    (fits : maxsize ≤ size) (key : Timeval) (indque : Nat) (inode : UInt32) :
    ∃ c' maxsize' size', heapInsert c key indque inode = some c' ∧
      Stores c' (Heap.heapInsert ⟨maxsize, nodes⟩ key indque inode).nodes maxsize' size' ∧
      Grows nodes.length maxsize size maxsize' size' := by
  obtain ⟨maxsize', size', grown, grows⟩ := stores.grow room fits
  have more := grows.room.trans_le grows.fits
  obtain ⟨written, written_eq, appended⟩ := grown.append more ⟨key, indque, inode⟩
  have length : (nodes ++ [(⟨key, indque, inode⟩ : HeapNode)]).length = nodes.length + 1 :=
    List.length_append
  obtain ⟨c', sifted, kept⟩ :=
    appended.siftUp (Nat.le_refl (nodes.length + 1)) (by omega) (by omega)
  refine ⟨c', maxsize', size', ?_, ?_, grows⟩
  · unfold HeapArray.heapInsert
    dsimp only
    rw [Option.bind_eq_bind, written_eq, Option.bind_some, appended.count, length]
    exact sifted
  · unfold Heap.heapInsert
    dsimp only
    rw [length]
    exact kept

theorem Stores.heapExtractMin {first : HeapNode} {rest : List HeapNode}
    (stores : Stores c (first :: rest) maxsize size) :
    ∃ c', heapExtractMin c = some (first, c') ∧
      Stores c' (Heap.heapExtractMin ⟨maxsize, first :: rest⟩).nodes maxsize size := by
  have count := stores.count
  have length : (first :: rest).length = rest.length + 1 := rfl
  obtain ⟨last, readLast, entryLast⟩ := stores.read (by omega) (Nat.le_refl _)
  have inside := stores.cells.lt (show 0 < (first :: rest).length by omega)
  have readFirst : c.read 1 = some first := stores.cells 0 (by omega)
  have same : (first :: rest).getLastD first = last := by
    rw [List.getLastD_eq_getLast?, List.getLast?_eq_getElem?, entryLast]
    rfl
  generalize moved : ((first :: rest).set 0 ((first :: rest).getLastD first)).dropLast = nodes
  have shorter : nodes.length = rest.length := by
    rw [← moved, List.length_dropLast, List.length_set]
    rfl
  have start : Stores ⟨c.maxsize, c.nodecount - 1, c.nodes.set 1 (some last)⟩ nodes maxsize
      size := by
    refine ⟨stores.maxsize, ?_, ?_, ?_⟩
    · rw [List.length_set]
      exact stores.size
    · show c.nodecount - 1 = _
      omega
    · rw [← moved, same]
      exact (stores.cells.set (by omega) last).shorter (List.dropLast_prefix _)
  have enough : nodes.length < 1 + nodes.length := by omega
  obtain ⟨c', sunk, kept⟩ := start.heapHeapify enough (Nat.le_refl 1)
  refine ⟨c', ?_, ?_⟩
  · unfold HeapArray.heapExtractMin
    rw [if_neg (by omega), readFirst, count, readLast]
    show (c.write 1 last).bind _ = _
    rw [write_node inside, Option.bind_some]
    show (HeapArray.heapHeapify ⟨c.maxsize, c.nodecount - 1, _⟩ 1).bind _ = _
    rw [sunk]
    rfl
  · show Stores c' (Heap.heapHeapify _ _ _) _ _
    rw [moved]
    exact kept

end Refinement

section Runs

def pair (t : Timeval) : Int ×ₗ Int := toLex (t.sec, t.usec)

theorem before_iff_pair (a b : Timeval) : a.before b = true ↔ pair a < pair b := by
  rw [pair, pair, Prod.Lex.toLex_lt_toLex, Timeval.before]
  split
  · rename_i same
    rw [decide_eq_true_eq, same]
    simp
  · rename_i apart
    rw [decide_eq_true_eq]
    simp [apart]

theorem ranks_pair (nodes : List HeapNode) : Ranks pair nodes :=
  fun a _ b _ => before_iff_pair a.key b.key

inductive Call where
  | insert (key : Timeval) (indque : Nat) (inode : UInt32)
  | extractMin

/-- A heap with the nodes put into it and taken out of it so far. -/
structure Usage where
  heap : CHeap
  inserted : List HeapNode
  extracted : List HeapNode

def Call.perform (u : Usage) : Call → Option Usage
  | .insert key indque inode => do
      let heap ← heapInsert u.heap key indque inode
      some ⟨heap, ⟨key, indque, inode⟩ :: u.inserted, u.extracted⟩
  | .extractMin => do
      let (minnode, heap) ← heapExtractMin u.heap
      some ⟨heap, u.inserted,
        if u.heap.nodecount = 0 then u.extracted else minnode :: u.extracted⟩

/-- Calls on a new heap; none if one of them leaves the array or reads what was not written. -/
def run (maxsize : Nat) (calls : List Call) : Option Usage :=
  calls.foldlM Call.perform ⟨heapCreate maxsize, [], []⟩

/-- The nodes in the cells `1..nodecount`. -/
def CHeap.contents (h : CHeap) : List HeapNode :=
  (List.range h.nodecount).filterMap fun i => h.read (i + 1)

/-- What the heap is for, and the size of its array if it was created for `m` nodes. -/
structure PriorityQueue (m : Nat) (u : Usage) : Prop where
  order : ∀ i, 2 ≤ i → i ≤ u.heap.nodecount → ∃ parent node, u.heap.read (i / 2) = some parent ∧
    u.heap.read i = some node ∧ pair parent.key ≤ pair node.key
  count : u.heap.contents.length = u.heap.nodecount
  contents : (u.heap.contents ++ u.extracted).Perm u.inserted
  empty : u.heap.nodecount = 0 →
    heapMin u.heap = none ∧ heapExtractMin u.heap = some (⟨⟨0, 0⟩, 0, 0⟩, u.heap)
  least : u.heap.nodecount ≠ 0 → ∃ node rest, heapMin u.heap = some 1 ∧
    u.heap.read 1 = some node ∧ heapExtractMin u.heap = some (node, rest) ∧
    node ∈ u.heap.contents ∧ ∀ n ∈ u.heap.contents, pair node.key ≤ pair n.key
  allocated : u.heap.nodes.length = if u.heap.maxsize = m then m + 1 else u.heap.maxsize
  growth : u.heap.maxsize ≤ max m (2 * u.inserted.length)

variable {c : CHeap} {nodes : List HeapNode} {maxsize size m : Nat} {u : Usage}

private theorem filterMap_range (nodes : List HeapNode) :
    (List.range nodes.length).filterMap (fun i => nodes[i]?) = nodes := by
  induction nodes with
  | nil => rfl
  | cons node rest ih =>
    rw [List.length_cons, List.range_succ_eq_map, List.filterMap_cons, List.filterMap_map]
    exact congrArg (List.cons node) ih

theorem Stores.contents (stores : Stores c nodes maxsize size) : c.contents = nodes := by
  rw [CHeap.contents, stores.count]
  apply Eq.trans ?_ (filterMap_range nodes)
  apply List.filterMap_congr
  intro i member
  exact stores.cells i (List.mem_range.mp member)

private theorem rankAt_entry {i : Nat} {node : HeapNode} (positive : 1 ≤ i)
    (entry : nodes[i - 1]? = some node) : rankAt pair (toLex (0, 0)) nodes i = pair node.key := by
  obtain ⟨j, rfl⟩ : ∃ j, i = j + 1 := ⟨i - 1, by omega⟩
  rw [Nat.add_sub_cancel] at entry
  rw [rankAt, entry]
  rfl

/-- The invariant of a run: the array stores a heap of the nodes that are still in it. -/
structure Holds (m : Nat) (u : Usage) (nodes : List HeapNode) (size : Nat) : Prop where
  stores : Stores u.heap nodes u.heap.maxsize size
  room : nodes.length < u.heap.maxsize
  order : Ordered nodes.length (rankAt pair (toLex (0, 0)) nodes)
  contents : (nodes ++ u.extracted).Perm u.inserted
  allocated : m ≤ u.heap.maxsize ∧ size = if u.heap.maxsize = m then m + 1 else u.heap.maxsize
  growth : u.heap.maxsize ≤ max m (2 * u.inserted.length)

theorem Holds.fits (h : Holds m u nodes size) : u.heap.maxsize ≤ size := by
  have allocated := h.allocated.2
  split at allocated <;> omega

theorem holds_create (positive : 1 ≤ m) : Holds m ⟨heapCreate m, [], []⟩ [] (m + 1) where
  stores := ⟨rfl, List.length_replicate, rfl, filled_nil _ _⟩
  room := positive
  order := fun i more within => by
    have none : i ≤ 0 := within
    omega
  contents := List.Perm.refl _
  allocated := ⟨Nat.le_refl _, (if_pos rfl).symm⟩
  growth := Nat.le_max_left _ _

theorem Holds.insert (h : Holds m u nodes size) (key : Timeval) (indque : Nat) (inode : UInt32) :
    ∃ u' nodes' size', (Call.insert key indque inode).perform u = some u' ∧
      Holds m u' nodes' size' := by
  obtain ⟨c', maxsize, size', done, kept, grows⟩ :=
    h.stores.heapInsert h.room h.fits key indque inode
  have contents := Heap.heapInsert_perm ⟨u.heap.maxsize, nodes⟩ key indque inode
  have longer := contents.length_eq
  rw [List.length_cons] at longer
  have length := h.contents.length_eq
  rw [List.length_append] at length
  obtain ⟨least, allocated⟩ := h.allocated
  have growth := h.growth
  obtain rfl := kept.maxsize
  refine ⟨⟨c', ⟨key, indque, inode⟩ :: u.inserted, u.extracted⟩, _, size', ?_, kept, ?_, ?_, ?_,
    ?_, ?_⟩
  · rw [Call.perform, done]
    rfl
  · rw [longer]
    exact grows.room
  · exact Heap.heapInsert_rank h.order (ranks_pair _)
  · exact (contents.append_right _).trans (h.contents.cons _)
  · dsimp only
    rcases grows.sizes with ⟨same, sized⟩ | ⟨doubled, sized, full⟩
    · rw [same, sized]
      exact h.allocated
    · rw [if_neg (by omega), sized, doubled]
      exact ⟨by omega, rfl⟩
  · rw [List.length_cons]
    rcases grows.sizes with ⟨same, _⟩ | ⟨doubled, _, full⟩ <;> dsimp only <;> omega

theorem Holds.extractMin (h : Holds m u nodes size) :
    ∃ u' nodes' size', Call.extractMin.perform u = some u' ∧ Holds m u' nodes' size' := by
  have count := h.stores.count
  rw [Call.perform]
  cases nodes with
  | nil =>
    have none : u.heap.nodecount = 0 := count
    refine ⟨u, [], size, ?_, h⟩
    rw [heapExtractMin, if_pos none]
    show some (Usage.mk _ _ (if _ then _ else _)) = _
    rw [if_pos none]
  | cons first rest =>
    have filled : u.heap.nodecount ≠ 0 := by
      rw [count]
      exact Nat.succ_ne_zero _
    obtain ⟨c', done, kept⟩ := h.stores.heapExtractMin
    have contents := Heap.heapExtractMin_perm (h := ⟨u.heap.maxsize, first :: rest⟩) rfl
    have same := kept.maxsize
    have shorter : (Heap.heapExtractMin ⟨u.heap.maxsize, first :: rest⟩).nodes.length + 1 =
        (first :: rest).length := contents.length_eq
    have stores : Stores c' (Heap.heapExtractMin ⟨u.heap.maxsize, first :: rest⟩).nodes c'.maxsize
        size := by
      rw [same]
      exact kept
    refine ⟨⟨c', u.inserted, first :: u.extracted⟩, _, size, ?_, stores, ?_, ?_, ?_, ?_, ?_⟩
    · rw [done]
      show some (Usage.mk _ _ (if _ then _ else _)) = _
      rw [if_neg filled]
    · have room := h.room
      dsimp only
      omega
    · exact Heap.heapExtractMin_rank (h := ⟨u.heap.maxsize, first :: rest⟩) h.order (ranks_pair _)
    · exact (List.perm_middle.trans (contents.append_right _)).trans h.contents
    · rw [same]
      exact h.allocated
    · rw [same]
      exact h.growth

theorem Holds.perform (h : Holds m u nodes size) (call : Call) :
    ∃ u' nodes' size', call.perform u = some u' ∧ Holds m u' nodes' size' := by
  cases call with
  | insert key indque inode => exact h.insert key indque inode
  | extractMin => exact h.extractMin

theorem run_holds (positive : 1 ≤ m) (calls : List Call) :
    ∃ u nodes size, run m calls = some u ∧ Holds m u nodes size := by
  have go (calls : List Call) (u : Usage) (nodes : List HeapNode) (size : Nat)
      (h : Holds m u nodes size) :
      ∃ u' nodes' size', calls.foldlM Call.perform u = some u' ∧ Holds m u' nodes' size' := by
    induction calls generalizing u nodes size with
    | nil => exact ⟨u, nodes, size, rfl, h⟩
    | cons call rest ih =>
      obtain ⟨next, nodes', size', performed, kept⟩ := h.perform call
      rw [List.foldlM_cons, performed]
      exact ih next nodes' size' kept
  exact go calls _ _ _ (holds_create positive)

theorem Holds.priorityQueue (h : Holds m u nodes size) : PriorityQueue m u := by
  have stored := h.stores.contents
  have count := h.stores.count
  refine ⟨?_, ?_, ?_, ?_, ?_, h.stores.size.trans h.allocated.2, h.growth⟩
  · intro i more within
    rw [count] at within
    obtain ⟨parent, readParent, entryParent⟩ := h.stores.read (i := i / 2) (by omega) (by omega)
    obtain ⟨node, readNode, entryNode⟩ := h.stores.read (i := i) (by omega) within
    refine ⟨parent, node, readParent, readNode, ?_⟩
    rw [← rankAt_entry (by omega) entryParent, ← rankAt_entry (by omega) entryNode]
    exact h.order i more within
  · rw [stored, count]
  · rw [stored]
    exact h.contents
  · intro none
    exact ⟨if_pos none, if_pos none⟩
  · intro filled
    cases nodes with
    | nil => exact absurd count filled
    | cons first rest =>
      obtain ⟨c', done, _⟩ := h.stores.heapExtractMin
      rw [stored]
      refine ⟨first, c', if_neg filled, h.stores.cells 0 (Nat.succ_pos _), done,
        List.mem_cons_self, ?_⟩
      intro n member
      exact Heap.heapMin_rank (h := ⟨u.heap.maxsize, first :: rest⟩) h.order rfl member

/-- A heap created for at least one node is a priority queue after any calls, none of
which gets stuck in a loop or outside the array. -/
theorem run_priorityQueue (m : Nat) (positive : 1 ≤ m) (calls : List Call) :
    ∃ u, run m calls = some u ∧ PriorityQueue m u := by
  obtain ⟨u, nodes, size, done, holds⟩ := run_holds positive calls
  exact ⟨u, done, holds.priorityQueue⟩

/-- Two nodes with equal keys in the smallest heap, which grows twice. -/
theorem run_priorityQueue_smallest :
    ∃ u, run 1 [.insert ⟨5, 0⟩ 0 7, .insert ⟨5, 0⟩ 1 8, .extractMin] = some u ∧
      PriorityQueue 1 u :=
  run_priorityQueue 1 (Nat.le_refl 1) _

end Runs

end IecUtils.Queue.HeapArray
