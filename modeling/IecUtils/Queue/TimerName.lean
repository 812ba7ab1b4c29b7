/- Module: IecUtils/Queue/TimerName
   source: heap_insert of quemngr/heapfunc.c, check_response and the timer branch of main in quemngr/quemngr.c
   digest: A retry timer finds its message again exactly if the inode number survives the passage through an int. -/

import IecUtils.Queue.Deferred

set_option autoImplicit false
set_option relaxedAutoImplicit false

namespace IecUtils.Queue.TimerName

open IecUtils.Foundation.Transition
open IecUtils.Queue.Files
open IecUtils.Queue.Heap
open IecUtils.Queue.Control
open IecUtils.Queue.Manager
open IecUtils.Queue.Deferred

/-- The expired timer leads back to its message, and is not taken out of the heap for
want of one. -/
structure Named (m : QueueState) (node : HeapNode) (i : Ino) : Prop where
  found : ∃ n elem, elemFind (m.quelist node.indque) (definode node.inode) = some n ∧
    (m.quelist node.indque).msg[n]? = some elem ∧ elem.inode = i
  kept : timerExpired m ≠ { m with timerheap := heapExtractMin m.timerheap }

/-- The number is the same after the conversion to `int` and back. -/
def Representable (i : Ino) : Prop := i.toNat < 2 ^ 31 ∨ 2 ^ 64 - 2 ^ 31 ≤ i.toNat

section Names

variable {m m' : QueueState} {node : HeapNode} {i : Ino}

theorem definode_eq_iff (i : Ino) : definode i.toUInt32 = i ↔ Representable i := by
  have range := i.toNat_lt
  have low : i.toUInt32.toNat = i.toNat % 2 ^ 32 := UInt64.toNat_toUInt32 i
  have high : (0xffffffff00000000 : UInt64).toNat = 0xffffffff00000000 := rfl
  rw [← UInt64.toNat_inj, definode, Representable]
  split
  · rw [UInt32.toNat_toUInt64, low]
    omega
  · rw [UInt64.toNat_add, UInt32.toNat_toUInt64, low, high]
    omega

theorem added_node {code : Int} {now : Timeval} (sound : Sound m)
    (answered : queueStep m (.response i code now) = some m')
    (added : m'.timerheap.nodes.Perm (node :: m.timerheap.nodes)) :
    node.inode = i.toUInt32 := by
  have grown := added.length_eq
  rw [List.length_cons] at grown
  obtain ⟨change, _⟩ := queueStep_change sound answered
  cases change with
  | kept _ _ timers =>
    rw [timers] at grown
    omega
  | sent _ _ _ timers =>
    rw [timers] at grown
    omega
  | settled _ _ timers =>
    rw [timers] at grown
    omega
  | @requeued _ _ key _ elem _ _ timers =>
    have one : [node].Perm [⟨key, elem.state + 1, elem.inode.toUInt32⟩] :=
      (List.perm_append_right_iff m.timerheap.nodes).mp (added.symm.trans timers)
    obtain rfl := List.singleton_inj.mp (List.perm_singleton.mp one)
    rfl

theorem elemFind_listed {l : Msglist} (member : i ∈ l.inodes) :
    ∃ n elem, elemFind l i = some n ∧ l.msg[n]? = some elem ∧ elem.inode = i := by
  cases found : elemFind l i with
  | none => exact absurd member (elemFind_none found)
  | some n =>
    obtain ⟨elem, entry, _, inode⟩ := elemFind_some found
    exact ⟨n, elem, rfl, entry, inode⟩

theorem timerExpired_kept (min : heapMin m.timerheap = some node)
    (listed : definode node.inode ∈ (m.quelist node.indque).inodes) :
    timerExpired m ≠ { m with timerheap := heapExtractMin m.timerheap } := by
  obtain ⟨n, _, found, _⟩ := elemFind_listed listed
  intro same
  have copies := congrArg (fun x => x.copies.length) same
  have nodes := congrArg (fun x => x.timerheap.nodes.length) same
  have fewer := (heapExtractMin_perm min).length_eq
  rw [List.length_cons] at fewer
  unfold timerExpired at copies nodes
  rw [min] at copies nodes
  simp only [found] at copies nodes
  split at copies
  · -- the attempt is on record, however it ends
    have logged : (sendFile node.indque (definode node.inode) m).copies.length =
        m.copies.length + 1 := by
      rw [Effects.sendFile_copies, List.length_append, List.length_singleton]
    split at copies
    · omega
    · simp only at copies
      omega
  · rename_i full
    rw [if_neg full] at nodes
    omega

end Names

section Runs

variable {fs : Fs} {deferred : Nat} {timeout : Nat → Nat} {restored : Nat → List Msg}

private theorem initqueue_sound : Sound (initqueue fs deferred timeout restored) :=
  ⟨fun _ member => absurd member List.not_mem_nil, fun _ member => absurd member List.not_mem_nil⟩

/-- In every run, for a timer that `check_response` adds for a message: in whatever state
that timer is the minimum of the heap and the message still waits in its queue, the timer
branch finds that message exactly if its inode number is representable as an `int`. -/
theorem timer_named_iff {es : List QueueEvent} {m m' later : QueueState} {i : Ino} {code : Int}
    {now : Timeval} {node : HeapNode}
    (reached : run queueStep (initqueue fs deferred timeout restored) es = some m)
    (answered : queueStep m (.response i code now) = some m')
    (added : m'.timerheap.nodes.Perm (node :: m.timerheap.nodes))
    (min : heapMin later.timerheap = some node)
    (waits : i ∈ (later.quelist node.indque).inodes) :
    Named later node i ↔ i.toNat < 2 ^ 31 ∨ 2 ^ 64 - 2 ^ 31 ≤ i.toNat := by
  have sound : Sound m := run_invariant
    (fun _ _ _ inv step => sound_step inv (queueStep_change inv step).1) initqueue_sound reached
  have inode := added_node sound answered added
  refine Iff.trans ⟨?_, ?_⟩ (definode_eq_iff i)
  · rintro ⟨⟨n, elem, found, entry, own⟩, _⟩
    obtain ⟨other, entry', _, named⟩ := elemFind_some found
    obtain rfl := Option.some.inj (entry.symm.trans entry')
    rw [← inode, ← named, own]
  · intro back
    rw [← inode] at back
    have listed : definode node.inode ∈ (later.quelist node.indque).inodes := by
      rw [back]
      exact waits
    obtain ⟨n, elem, found, entry, own⟩ := elemFind_listed listed
    exact ⟨⟨n, elem, found, entry, own.trans back⟩, timerExpired_kept min listed⟩

def failure (i : Ino) : List QueueEvent :=
  [.arrive i, .scan [⟨i.toNat, i, ⟨7, 0⟩⟩] [⟨i, ⟨7, 0⟩, IN⟩], .sendIn, .response i 1 ⟨8, 0⟩]

theorem timer_named_small :
    ∃ m m', run queueStep (initqueue [] 1 (fun _ => 60) fun _ => []) (failure 5) = some m ∧
      queueStep m (.response 5 2 ⟨9, 0⟩) = some m' ∧ Named m' ⟨⟨69, 0⟩, 2, 5⟩ 5 := by
  have reached : run queueStep (initqueue [] 1 (fun _ => 60) fun _ => []) (failure 5) =
      some _ := rfl
  refine ⟨_, _, reached, rfl, ?_⟩
  exact (timer_named_iff reached (rfl : queueStep _ (.response 5 2 ⟨9, 0⟩) = some _)
    (List.Perm.refl _) rfl (by decide)).mpr (by decide)

/-- The inode number 2^31 comes back as 2^64 - 2^31: the timer is dropped, and the message
waits without one. -/
theorem large_inode_unnamed :
    ∃ m m', run queueStep (initqueue [] 1 (fun _ => 60) fun _ => [])
        (failure 2147483648 ++ [.response 2147483648 2 ⟨9, 0⟩]) = some m ∧
      heapMin m.timerheap = some ⟨⟨69, 0⟩, 2, 2147483648⟩ ∧
      2147483648 ∈ (m.quelist 2).inodes ∧
      ¬ Named m ⟨⟨69, 0⟩, 2, 2147483648⟩ 2147483648 ∧
      queueStep m .expire = some m' ∧ m'.timerheap.nodes = [] ∧ m'.copies = m.copies ∧
      2147483648 ∈ (m'.quelist 2).inodes := by
  refine ⟨_, _, rfl, rfl, by decide, ?_, rfl, rfl, rfl, by decide⟩
  intro named
  obtain ⟨n, elem, found, _⟩ := named.found
  have lost : Option.none = some n := found
  cases lost

end Runs

end IecUtils.Queue.TimerName
