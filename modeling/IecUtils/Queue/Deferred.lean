/- Module: IecUtils/Queue/Deferred
   source: check_response, flush_queue and the timer branch of quemngr/quemngr.c, quemngr/heapfunc.c
   digest: After the first flush every deferred message that is not in flight has a timer. -/

import IecUtils.Queue.MainLoop
import IecUtils.Queue.Timers

set_option autoImplicit false
set_option relaxedAutoImplicit false

namespace IecUtils.Queue.Deferred

open IecUtils.Foundation.Transition
open IecUtils.Queue.Files
open IecUtils.Queue.Heap
open IecUtils.Queue.Control
open IecUtils.Queue.Manager
open IecUtils.Queue.Effects
open IecUtils.Queue.MainLoop

/-- How often the list of queue `q` holds inode `i`. -/
def listed (m : QueueState) (q : Nat) (i : Ino) : Nat := (m.quelist q).inodes.count i

/-- How many entries in flight are for inode `i` of queue `q`. -/
def flying (m : QueueState) (q : Nat) (i : Ino) : Nat :=
  (m.quelist ACT).msg.countP fun e => e.state = q ∧ e.inode = i

/-- How many timers there are for inode `i` of queue `q`. -/
def timed (m : QueueState) (q : Nat) (i : Ino) : Nat :=
  m.timerheap.nodes.countP fun n => n.indque = q ∧ definode n.inode = i

/-- In the deferred queues above `low`, there is an entry in flight or a timer for
every entry of a list. -/
def Covered (low : Nat) (m : QueueState) : Prop :=
  ∀ q, low < q → 2 ≤ q → q ≤ m.countq → ∀ i, listed m q i ≤ flying m q i + timed m q i

/-- What a step does to the lists and to the heap, whatever the spool looks like.
Only the lists of the deferred queues and of ACT are described. -/
inductive Change (m : QueueState) : QueueEvent → QueueState → Prop
  | kept {e : QueueEvent} {m' : QueueState} (act : (m'.quelist ACT).msg = (m.quelist ACT).msg)
      (lists : ∀ q, 2 ≤ q → (m'.quelist q).inodes = (m.quelist q).inodes)
      (timers : m'.timerheap = m.timerheap) : Change m e m'
  | sent {e : QueueEvent} {m' : QueueState} {q : Nat} {i : Ino} (queue : 1 ≤ q)
      (act : (m'.quelist ACT).msg = (m.quelist ACT).msg ++ [elemNew i ⟨0, 0⟩ q])
      (lists : ∀ q, 2 ≤ q → (m'.quelist q).inodes = (m.quelist q).inodes)
      (timers : m'.timerheap = m.timerheap) : Change m e m'
  | expired {m' : QueueState} {node : HeapNode} (min : heapMin m.timerheap = some node)
      (missing : definode node.inode ∉ (m.quelist node.indque).inodes)
      (act : (m'.quelist ACT).msg = (m.quelist ACT).msg)
      (lists : ∀ q, 2 ≤ q → (m'.quelist q).inodes = (m.quelist q).inodes)
      (timers : m'.timerheap = heapExtractMin m.timerheap) : Change m .expire m'
  | fired {m' : QueueState} {node : HeapNode} (min : heapMin m.timerheap = some node)
      (act : (m'.quelist ACT).msg =
        (m.quelist ACT).msg ++ [elemNew (definode node.inode) ⟨0, 0⟩ node.indque])
      (lists : ∀ q, 2 ≤ q → (m'.quelist q).inodes = (m.quelist q).inodes)
      (timers : m'.timerheap = heapExtractMin m.timerheap) : Change m .expire m'
  | settled {code : Int} {now : Timeval} {m' : QueueState} {elem : Msg}
      (act : (m.quelist ACT).msg.Perm (elem :: (m'.quelist ACT).msg))
      (lists : ∀ q, 2 ≤ q → (m'.quelist q).inodes =
        if q = elem.state then (m.quelist q).inodes.erase elem.inode else (m.quelist q).inodes)
      (timers : m'.timerheap = m.timerheap) : Change m (.response elem.inode code now) m'
  | requeued {code : Int} {now key : Timeval} {m' : QueueState} {elem : Msg}
      (act : (m.quelist ACT).msg.Perm (elem :: (m'.quelist ACT).msg))
      (lists : ∀ q, 2 ≤ q → (m'.quelist q).inodes =
        if q = elem.state then (m.quelist q).inodes.erase elem.inode
        else if q = elem.state + 1 then (m.quelist q).inodes ++ [elem.inode]
        else (m.quelist q).inodes)
      (timers : m'.timerheap.nodes.Perm
        (⟨key, elem.state + 1, elem.inode.toUInt32⟩ :: m.timerheap.nodes)) :
      Change m (.response elem.inode code now) m'

/-- Entries in flight come from queues, and timers are for deferred ones. -/
structure Sound (m : QueueState) : Prop where
  active : ∀ e ∈ (m.quelist ACT).msg, 1 ≤ e.state
  timers : ∀ n ∈ m.timerheap.nodes, 2 ≤ n.indque

section Inversion

variable {m m' : QueueState}

private theorem perform_commits (actions : List Action) (commit : QueueState → QueueState)
    (m : QueueState) : (∃ p trail, perform actions commit m =
        { m.onDisk p trail with exited := true }) ∨
      ∃ p trail, perform actions commit m = commit (m.onDisk p trail) := by
  induction actions generalizing m with
  | nil => exact .inr ⟨m.disk, m.trail, rfl⟩
  | cons a rest ih =>
    unfold perform
    split
    · exact .inl ⟨m.disk, m.trail, rfl⟩
    · rename_i fs done
      exact ih (m.onDisk (m.disk.after a fs) (m.trail ++ [m.disk.after a fs]))

private theorem elemDel_found {l : Msglist} {i : Ino} {n : Nat} (found : elemFind l i = some n) :
    ∃ e, l.msg[n]? = some e ∧ e.inode = i ∧ l.msg.Perm (e :: (elemDel l i).msg) := by
  obtain ⟨below, here, before⟩ := List.findIdx?_eq_some_iff_getElem.mp found
  have inode : l.msg[n].inode = i := by simpa using here
  refine ⟨l.msg[n], List.getElem?_eq_getElem below, inode, ?_⟩
  have split : l.msg = l.msg.take n ++ l.msg[n] :: l.msg.drop (n + 1) := by
    rw [← List.drop_eq_getElem_cons below, List.take_append_drop]
  have passed : ∀ e ∈ l.msg.take n, ¬ (decide (e.inode = i)) = true := by
    intro e member
    obtain ⟨k, inside, rfl⟩ := List.mem_iff_getElem.mp member
    rw [List.length_take] at inside
    have other := before k (by omega)
    rw [List.getElem_take]
    simpa using other
  have rest : (elemDel l i).msg = l.msg.take n ++ l.msg.drop (n + 1) := by
    show l.msg.eraseP _ = _
    conv_lhs => rw [split]
    rw [List.eraseP_append_right _ passed, List.eraseP_cons_of_pos (by simpa using inode)]
  rw [rest]
  conv_lhs => rw [split]
  exact List.perm_middle

private theorem sendFile_change {e : QueueEvent} {q : Nat} {i : Ino} (queue : 1 ≤ q) :
    Change m e (sendFile q i m) := by
  rcases perform_commits [{ call := copyCall q i }] (dispatch q i)
    (m.logCopy q i (copyError q i m.disk.fs)) with ⟨p, trail, result⟩ | ⟨p, trail, result⟩
  · rw [sendFile, result]
    exact .kept rfl (fun _ _ => rfl) rfl
  · rw [sendFile, result]
    refine .sent (q := q) (i := i) queue ?_ ?_ rfl
    · rw [dispatch_act _ _ (queue_ne_act queue)]
      rfl
    · intro r deferred
      exact dispatch_inodes _ _ (queue_ne_act (by omega))

private theorem sendNext_change {e : QueueEvent} {q : Nat} (queue : 1 ≤ q) :
    Change m e (sendNext q m) := by
  unfold sendNext
  split
  · split
    · exact .kept rfl (fun _ _ => rfl) rfl
    · exact sendFile_change queue
  · exact .kept rfl (fun _ _ => rfl) rfl

private theorem scanEntry_lists (m : QueueState) (name : Int) (i : Ino) (tv : Timeval) :
    (∀ q, q ≠ IN → (scanEntry m name i tv).quelist q = m.quelist q) ∧
      (scanEntry m name i tv).timerheap = m.timerheap ∧
      (scanEntry m name i tv).countq = m.countq := by
  unfold scanEntry
  split
  · exact ⟨fun _ _ => rfl, rfl, rfl⟩
  · split
    · rcases perform_commits [{ call := .rename (.drop, name) (dirOf IN, name) }]
        (takeIn name tv) m with ⟨p, trail, result⟩ | ⟨p, trail, result⟩
      · rw [result]
        exact ⟨fun _ _ => rfl, rfl, rfl⟩
      · rw [result]
        unfold takeIn
        split
        · exact ⟨fun _ _ => rfl, rfl, rfl⟩
        · exact ⟨fun q other => put_other _ _ other, rfl, rfl⟩
    · exact ⟨fun _ _ => rfl, rfl, rfl⟩

private theorem scanLoop_lists (entries : List Dirent) (m : QueueState) :
    (∀ q, q ≠ IN → (scanLoop entries m).quelist q = m.quelist q) ∧
      (scanLoop entries m).timerheap = m.timerheap ∧
      (scanLoop entries m).countq = m.countq := by
  induction entries generalizing m with
  | nil => exact ⟨fun _ _ => rfl, rfl, rfl⟩
  | cons d ds ih =>
    obtain ⟨lists, timers, count⟩ := scanEntry_lists m d.name d.ino d.tv
    obtain ⟨lists', timers', count'⟩ := ih (scanEntry m d.name d.ino d.tv)
    exact ⟨fun q other => (lists' q other).trans (lists q other), timers'.trans timers,
      count'.trans count⟩

private theorem scanDrop_change {e : QueueEvent} (entries : List Dirent) (sorted : List Msg)
    (m : QueueState) : Change m e (scanDrop entries sorted m) ∧
      (scanDrop entries sorted m).countq = m.countq := by
  obtain ⟨lists, timers, count⟩ := scanLoop_lists entries m
  have deferred {q : Nat} (two : 2 ≤ q) : q ≠ IN := by
    unfold IN
    omega
  have act : ACT ≠ IN := by decide
  have looped : Change m e (scanLoop entries m) :=
    .kept (by rw [lists _ act]) (fun q two => by rw [lists _ (deferred two)]) timers
  unfold scanDrop
  simp only
  split_ifs
  · exact ⟨looped, count⟩
  · refine ⟨.kept ?_ ?_ timers, count⟩
    · rw [put_other _ _ act, lists _ act]
    · intro q two
      rw [put_other _ _ (deferred two), lists _ (deferred two)]
  · exact ⟨looped, count⟩

private theorem timerExpired_change (h : Sound m) : Change m .expire (timerExpired m) := by
  unfold timerExpired
  split
  · exact .kept rfl (fun _ _ => rfl) rfl
  · rename_i node min
    simp only
    split
    · rename_i missing
      exact .expired min (elemFind_none missing) rfl (fun _ _ => rfl) rfl
    · split
      · have queue : 1 ≤ node.indque := by
          have deferred := h.timers node (List.mem_of_getElem? min)
          omega
        rcases perform_commits [{ call := copyCall node.indque (definode node.inode) }]
          (dispatch node.indque (definode node.inode))
          (m.logCopy node.indque (definode node.inode)
            (copyError node.indque (definode node.inode) m.disk.fs))
          with ⟨p, trail, result⟩ | ⟨p, trail, result⟩
        · rw [sendFile, result]
          exact .kept rfl (fun _ _ => rfl) rfl
        · rw [sendFile, result]
          split
          · -- the process went on after the call, so this branch is not taken
            refine .sent (q := node.indque) (i := definode node.inode) queue ?_ ?_ rfl
            · rw [dispatch_act _ _ (queue_ne_act queue)]
              rfl
            · intro r deferred
              exact dispatch_inodes _ _ (queue_ne_act (by omega))
          · refine .fired min ?_ ?_ rfl
            · show ((dispatch node.indque (definode node.inode) _).quelist ACT).msg = _
              rw [dispatch_act _ _ (queue_ne_act queue)]
              rfl
            · intro r deferred
              exact dispatch_inodes _ _ (queue_ne_act (by omega))
      · exact .kept rfl (fun _ _ => rfl) rfl

private theorem settle_change {code : Int} {now : Timeval} {elem : Msg} {n : QueueState}
    (low : 1 ≤ elem.state) (same : n.quelist = m.quelist) (timers : n.timerheap = m.timerheap)
    (found : (m.quelist ACT).msg.Perm (elem :: (elemDel (m.quelist ACT) elem.inode).msg)) :
    Change m (.response elem.inode code now) (settle elem.state elem.inode n) := by
  refine .settled ?_ ?_ timers
  · rw [settle_act _ _ (queue_ne_act low), same]
    exact found
  · intro q deferred
    rw [settle_queue _ _ (queue_ne_act (by omega)), same]
    split
    · rename_i here
      rw [here, ← elemDel_inodes]
      rfl
    · rfl

private theorem requeue_change {code : Int} {now now' : Timeval} {elem : Msg} {n : QueueState}
    (low : 1 ≤ elem.state) (same : n.quelist = m.quelist) (timers : n.timerheap = m.timerheap)
    (found : (m.quelist ACT).msg.Perm (elem :: (elemDel (m.quelist ACT) elem.inode).msg)) :
    Change m (.response elem.inode code now') (requeue elem.state elem.inode now n) := by
  obtain ⟨key, perm⟩ := requeue_timers (s := elem.state) n elem.inode now
  rw [timers] at perm
  refine .requeued ?_ ?_ perm
  · rw [requeue_act _ _ _ (queue_ne_act low), same]
    exact found
  · intro q deferred
    rw [requeue_queue _ _ _ (queue_ne_act (by omega)), same]
    split
    · rename_i here
      rw [here, ← elemDel_inodes]
      rfl
    · split
      · rw [elemAdd_inodes]
        rfl
      · rfl

private theorem checkResponse_change {i : Ino} {code : Int} {now : Timeval} (h : Sound m) :
    Change m (.response i code now) (checkResponse i code now (m.answer i code)) := by
  unfold checkResponse
  split
  · exact .kept rfl (fun _ _ => rfl) rfl
  · rename_i n located
    obtain ⟨elem, entry, rfl, found⟩ := elemDel_found located
    have low := h.active elem (List.mem_of_getElem? entry)
    rw [entry]
    simp only
    split_ifs
    · rcases perform_commits [{ call := .unlink (.act, ld elem.inode) },
        { call := .unlink (dirOf elem.state, ld elem.inode), delivers := some elem.inode }]
        (settle elem.state elem.inode) (m.answer elem.inode code)
        with ⟨p, trail, result⟩ | ⟨p, trail, result⟩
      · rw [result]
        exact .kept rfl (fun _ _ => rfl) rfl
      · rw [result]
        exact settle_change low rfl rfl found
    · refine .kept ?_ ?_ rfl
      · rw [put_other _ _ (Ne.symm (queue_ne_act low))]
        rfl
      · intro q deferred
        by_cases here : q = elem.state
        · rw [here, put_same]
          rfl
        · rw [put_other _ _ here]
          rfl
    · rcases perform_commits [{ call := .unlink (.act, ld elem.inode) },
        { call := .rename (dirOf elem.state, ld elem.inode) (.fail, ld elem.inode) }]
        (settle elem.state elem.inode) (m.answer elem.inode code)
        with ⟨p, trail, result⟩ | ⟨p, trail, result⟩
      · rw [result]
        exact .kept rfl (fun _ _ => rfl) rfl
      · rw [result]
        exact settle_change low rfl rfl found
    · rcases perform_commits [{ call := .unlink (.act, ld elem.inode) },
        { call := .rename (dirOf elem.state, ld elem.inode) (dirOf (elem.state + 1), ld elem.inode) }]
        (requeue elem.state elem.inode now) (m.answer elem.inode code)
        with ⟨p, trail, result⟩ | ⟨p, trail, result⟩
      · rw [result]
        exact .kept rfl (fun _ _ => rfl) rfl
      · rw [result]
        exact requeue_change low rfl rfl found

private theorem perform_countq {actions : List Action} (commit : QueueState → QueueState)
    (keeps : ∀ n, (commit n).countq = n.countq) :
    (perform actions commit m).countq = m.countq := by
  rcases perform_commits actions commit m with ⟨p, trail, result⟩ | ⟨p, trail, result⟩
  · rw [result]
    rfl
  · rw [result, keeps]
    rfl

private theorem sendFile_countq (q : Nat) (i : Ino) (m : QueueState) :
    (sendFile q i m).countq = m.countq :=
  perform_countq (dispatch q i) fun _ => rfl

private theorem sendNext_countq (q : Nat) (m : QueueState) : (sendNext q m).countq = m.countq := by
  unfold sendNext
  split
  · split
    · rfl
    · exact sendFile_countq _ _ _
  · rfl

private theorem timerExpired_countq (m : QueueState) : (timerExpired m).countq = m.countq := by
  unfold timerExpired
  split
  · rfl
  · simp only
    split
    · rfl
    · split
      · split
        · exact sendFile_countq _ _ _
        · exact sendFile_countq _ _ _
      · rfl

private theorem checkResponse_countq (i : Ino) (code : Int) (now : Timeval) (m : QueueState) :
    (checkResponse i code now m).countq = m.countq := by
  unfold checkResponse
  split
  · rfl
  · split
    · rfl
    · simp only
      split_ifs
      · exact perform_countq _ fun _ => rfl
      · rfl
      · exact perform_countq _ fun _ => rfl
      · exact perform_countq _ fun _ => rfl

theorem queueStep_change {e : QueueEvent} (h : Sound m) (step : queueStep m e = some m') :
    Change m e m' ∧ m'.countq = m.countq := by
  obtain ⟨_, performs⟩ := queueStep_performs step
  cases performs with
  | arrive i fresh => exact ⟨.kept rfl (fun _ _ => rfl) rfl, rfl⟩
  | signal up => exact ⟨.kept rfl (fun _ _ => rfl) rfl, rfl⟩
  | scan entries sorted listing sort => exact scanDrop_change entries sorted m
  | sendIn => exact ⟨sendNext_change (by decide), sendNext_countq _ _⟩
  | flushSend q range => exact ⟨sendNext_change range.1, sendNext_countq _ _⟩
  | expire => exact ⟨timerExpired_change h, timerExpired_countq _⟩
  | response i code now => exact ⟨checkResponse_change h, checkResponse_countq _ _ _ _⟩

end Inversion

/-- The inode numbers that come up are below 2^31, so that a timer can name them. -/
def SmallInodes (_ : QueueState) : QueueEvent → Prop
  | .arrive i => i.toNat < 2 ^ 31
  | .response i _ _ => i.toNat < 2 ^ 31
  | _ => True

instance (m : QueueState) (e : QueueEvent) : Decidable (SmallInodes m e) :=
  match e with
  | .arrive i => inferInstanceAs (Decidable (i.toNat < 2 ^ 31))
  | .response i _ _ => inferInstanceAs (Decidable (i.toNat < 2 ^ 31))
  | .signal _ => isTrue trivial
  | .scan _ _ => isTrue trivial
  | .sendIn => isTrue trivial
  | .flushSend _ => isTrue trivial
  | .expire => isTrue trivial

section Steps

variable {m m' : QueueState} {e : QueueEvent}

private theorem definode_small {i : Ino} (small : i.toNat < 2 ^ 31) : definode i.toUInt32 = i := by
  apply UInt64.toNat_inj.mp
  have bits : i.toUInt32.toNat = i.toNat := by
    rw [UInt64.toNat_toUInt32]
    omega
  rw [definode, if_pos (by omega), UInt32.toNat_toUInt64, bits]

private theorem Sound.flies (h : Sound m) {elem : Msg} (queue : 1 ≤ elem.state)
    (act : (m'.quelist ACT).msg = (m.quelist ACT).msg ++ [elem]) :
    ∀ e ∈ (m'.quelist ACT).msg, 1 ≤ e.state := by
  intro e member
  rw [act] at member
  rcases List.mem_append.mp member with old | new
  · exact h.active e old
  · rw [List.mem_singleton.mp new]
    exact queue

private theorem Sound.lands (h : Sound m) {elem : Msg}
    (act : (m.quelist ACT).msg.Perm (elem :: (m'.quelist ACT).msg)) :
    ∀ e ∈ (m'.quelist ACT).msg, 1 ≤ e.state := by
  intro e member
  exact h.active e (act.symm.subset (List.mem_cons_of_mem _ member))

private theorem Sound.extracts (h : Sound m) {node : HeapNode}
    (min : heapMin m.timerheap = some node) (timers : m'.timerheap = heapExtractMin m.timerheap) :
    ∀ n ∈ m'.timerheap.nodes, 2 ≤ n.indque := by
  intro n member
  rw [timers] at member
  exact h.timers n ((heapExtractMin_perm min).subset (List.mem_cons_of_mem _ member))

theorem sound_step (h : Sound m) (change : Change m e m') : Sound m' := by
  cases change with
  | kept act lists timers =>
    refine ⟨?_, ?_⟩
    · rw [act]
      exact h.active
    · rw [timers]
      exact h.timers
  | sent queue act lists timers =>
    refine ⟨h.flies queue act, ?_⟩
    rw [timers]
    exact h.timers
  | expired min missing act lists timers =>
    refine ⟨?_, h.extracts min timers⟩
    rw [act]
    exact h.active
  | @fired _ node min act lists timers =>
    have deferred := h.timers node (List.mem_of_getElem? min)
    exact ⟨h.flies (Nat.le_of_succ_le deferred) act, h.extracts min timers⟩
  | settled act lists timers =>
    refine ⟨h.lands act, ?_⟩
    rw [timers]
    exact h.timers
  | @requeued _ _ key _ elem act lists timers =>
    refine ⟨h.lands act, ?_⟩
    intro n member
    rcases List.mem_cons.mp (timers.subset member) with rfl | old
    · have low := h.active elem (act.symm.subset List.mem_cons_self)
      show 2 ≤ elem.state + 1
      omega
    · exact h.timers n old

private theorem flying_append {q r : Nat} {i j : Ino}
    (act : (m'.quelist ACT).msg = (m.quelist ACT).msg ++ [elemNew j ⟨0, 0⟩ r]) :
    flying m' q i = flying m q i + if r = q ∧ j = i then 1 else 0 := by
  rw [flying, act, List.countP_append, flying, List.countP_singleton]
  simp only [decide_eq_true_eq]
  rfl

private theorem flying_perm {q : Nat} {i : Ino} {elem : Msg}
    (act : (m.quelist ACT).msg.Perm (elem :: (m'.quelist ACT).msg)) :
    flying m q i = flying m' q i + if elem.state = q ∧ elem.inode = i then 1 else 0 := by
  rw [flying, act.countP_eq, List.countP_cons, flying]
  simp

private theorem timed_extract {q : Nat} {i : Ino} {node : HeapNode}
    (min : heapMin m.timerheap = some node) (timers : m'.timerheap = heapExtractMin m.timerheap) :
    timed m q i = timed m' q i + if node.indque = q ∧ definode node.inode = i then 1 else 0 := by
  rw [timed, ← (heapExtractMin_perm min).countP_eq, List.countP_cons, timed, timers]
  simp

private theorem covered_answered {i : Ino} {elem : Msg}
    (act : (m.quelist ACT).msg.Perm (elem :: (m'.quelist ACT).msg))
    (list : (m'.quelist elem.state).inodes = (m.quelist elem.state).inodes.erase elem.inode)
    (timers : timed m elem.state i ≤ timed m' elem.state i)
    (before : listed m elem.state i ≤ flying m elem.state i + timed m elem.state i) :
    listed m' elem.state i ≤ flying m' elem.state i + timed m' elem.state i := by
  have fewer := flying_perm (q := elem.state) (i := i) act
  have left : listed m' elem.state i =
      listed m elem.state i - if elem.inode = i then 1 else 0 := by
    rw [listed, list, List.count_erase, listed]
    simp
  simp only [true_and] at fewer
  omega

private theorem covered_step {low : Nat} (h : Covered low m) (small : SmallInodes m e)
    (change : Change m e m') (count : m'.countq = m.countq) : Covered low m' := by
  intro q above deferred range i
  have before := h q above deferred (count ▸ range) i
  cases change with
  | kept act lists timers =>
    rw [listed, lists q deferred, flying, act, timed, timers]
    exact before
  | sent queue act lists timers =>
    have more := flying_append (q := q) (i := i) act
    rw [listed, lists q deferred, timed, timers, more]
    rw [listed, timed] at before
    omega
  | @expired _ node min missing act lists timers =>
    have fewer := timed_extract (q := q) (i := i) min timers
    rw [listed, lists q deferred, flying, act]
    rw [listed, flying] at before
    by_cases own : node.indque = q ∧ definode node.inode = i
    · obtain ⟨rfl, rfl⟩ := own
      rw [List.count_eq_zero_of_not_mem missing]
      exact Nat.zero_le _
    · rw [if_neg own] at fewer
      omega
  | @fired _ node min act lists timers =>
    have more := flying_append (q := q) (i := i) act
    have fewer := timed_extract (q := q) (i := i) min timers
    rw [listed, lists q deferred, more]
    rw [listed] at before
    omega
  | @settled _ _ _ elem act lists timers =>
    have same : timed m' q i = timed m q i := by rw [timed, timers, timed]
    have now := lists q deferred
    by_cases here : q = elem.state
    · subst here
      rw [if_pos rfl] at now
      exact covered_answered act now (Nat.le_of_eq same.symm) before
    · have others := flying_perm (q := q) (i := i) act
      rw [if_neg (fun own => here own.1.symm)] at others
      rw [if_neg here] at now
      rw [listed, now, same]
      rw [listed] at before
      omega
  | @requeued _ _ key _ elem act lists timers =>
    have more : timed m' q i = timed m q i +
        if elem.state + 1 = q ∧ elem.inode = i then 1 else 0 := by
      rw [timed, timers.countP_eq, List.countP_cons, timed]
      simp only [definode_small small, decide_eq_true_eq]
    have now := lists q deferred
    by_cases here : q = elem.state
    · subst here
      rw [if_pos rfl] at now
      exact covered_answered act now (by omega) before
    · have others := flying_perm (q := q) (i := i) act
      rw [if_neg (fun own => here own.1.symm)] at others
      rw [if_neg here] at now
      by_cases next : q = elem.state + 1
      · -- the entry that comes into the queue comes with its timer
        subst next
        rw [if_pos rfl] at now
        rw [listed, now, List.count_append, List.count_singleton]
        rw [listed] at before
        simp only [true_and] at more
        simp only [beq_iff_eq]
        omega
      · rw [if_neg next] at now
        rw [listed, now]
        rw [listed] at before
        omega

private theorem covered_empty {q : Nat} (h : Covered (q + 1) m)
    (empty : (m.quelist (q + 1)).total ≤ 0) : Covered q m := by
  intro r above deferred range i
  by_cases here : r = q + 1
  · have none := Msglist.inodes_of_empty empty
    rw [listed, here, none]
    exact Nat.zero_le _
  · exact h r (by omega) deferred range i

end Steps

/-- What every state of the loop satisfies; `flushed` says that `flush_queue` has been
through all queues before. While it runs, the queues above `indque` are covered. -/
structure Attended (flushed : Prop) (s : LoopState) : Prop where
  steady : s.queue.exited = false → Steady s
  sound : Sound s.queue
  flush : ∀ q, s.place.indque = some q → Covered q s.queue
  always : flushed → Covered 0 s.queue

section Runs

variable {s t : LoopState} {e : LoopEvent} {flushed : Prop}

private theorem change_nodes {m m' : QueueState} {f : QueueEvent} (change : Change m f m')
    (other : f ≠ .expire) (filled : m.timerheap.nodes ≠ []) : m'.timerheap.nodes ≠ [] := by
  cases change with
  | kept act lists timers => exact timers ▸ filled
  | sent queue act lists timers => exact timers ▸ filled
  | expired => exact absurd rfl other
  | fired => exact absurd rfl other
  | settled act lists timers => exact timers ▸ filled
  | requeued act lists timers =>
    intro none
    rw [none] at timers
    exact List.cons_ne_nil _ _ timers.symm.eq_nil

private theorem serves_covered {m : QueueState} {before after : Option Nat} {f : QueueEvent}
    (order : Serves m.countq before f after) (covered : ∀ q, before = some q → Covered q m) :
    ∀ q, after = some q → Covered q m := by
  intro q found
  cases order with
  | arrive => exact covered q found
  | response => exact covered q found
  | signal => cases found
  | scan => cases found
  | reconnect =>
    obtain rfl := Option.some.inj found
    intro r above _ range
    omega
  | sendIn => cases found
  | expire => cases found
  | flush => exact covered q found

private theorem loopStep_attended (h : Attended flushed s) (small : Lifted SmallInodes s e)
    (happens : loopStep s e = some t) : Attended flushed t := by
  have living := loopStep_living happens
  have steady := h.steady living
  have progress := loopStep_progress steady happens
  have steadied := progress.steady steady
  have still (same : t.queue = s.queue) (operation : e.operation s = none)
      (flush : ∀ q, t.place.indque = some q → Covered q s.queue) : Attended flushed t := by
    refine ⟨fun _ => steadied (by rw [same]) ?_, same ▸ h.sound, same ▸ flush, same ▸ h.always⟩
    intro f found
    rw [operation] at found
    cases found
  cases progress with
  | @operates f operation step order armed =>
    obtain ⟨change, count⟩ := queueStep_change h.sound step
    have kept {low : Nat} (before : Covered low s.queue) : Covered low t.queue :=
      covered_step before (small f operation) change count
    refine ⟨?_, sound_step h.sound change, ?_, fun done => kept (h.always done)⟩
    · intro _
      refine steadied count ?_
      intro f' operation' other filled
      obtain rfl := Option.some.inj (operation.symm.trans operation')
      exact change_nodes change other filled
    · rw [← count] at order
      exact serves_covered order fun q found => kept (h.flush q found)
  | rests operation same place wait =>
    refine still same operation ?_
    rw [place]
    exact h.flush
  | @descends q operation same before after empty wait =>
    refine still same operation ?_
    intro r found
    rw [after] at found
    obtain rfl := Option.some.inj found
    exact covered_empty (h.flush (q + 1) before) empty
  | leaves operation same before after wait =>
    refine still same operation ?_
    intro r found
    rw [after] at found
    cases found

variable {deferred : Nat} {timeout : Nat → Nat} {restored : Nat → List Msg} {fs : Fs} {clock : Int}

private theorem start_attended :
    Attended False (LoopState.start (initqueue fs deferred timeout restored) clock) := by
  refine ⟨?_, ⟨?_, ?_⟩, ?_, False.elim⟩
  · intro _
    refine ⟨?_, ?_⟩
    · intro positive
      have impossible : (0 : Int) < -1 := positive
      omega
    · intro q found
      cases found
  · intro e member
    cases member
  · intro n member
    cases member
  · intro q found
    cases found

/-- From the end of the first `flush_queue` on, in every run of the daemon on inode
numbers below 2^31: a message of a deferred queue is in flight or has a timer. -/
theorem deferred_timed {before after : List LoopEvent}
    (small : Guarded loopStep (Lifted SmallInodes)
      (LoopState.start (initqueue fs deferred timeout restored) clock) before)
    (flush : run loopStep (LoopState.start (initqueue fs deferred timeout restored) clock) before =
      some s)
    (done : s.place = .flush 0) (small' : Guarded loopStep (Lifted SmallInodes) s after)
    (reached : run loopStep s after = some t) {q : Nat} (two : 2 ≤ q) (range : q ≤ t.queue.countq)
    {i : Ino} (held : i ∈ (t.queue.quelist q).inodes)
    (idle : i ∉ (t.queue.quelist ACT).inodes) :
    ∃ n ∈ t.queue.timerheap.nodes, n.indque = q ∧ definode n.inode = i := by
  have first := guarded_invariant
    (fun _ _ _ inv meets happens => loopStep_attended inv meets happens)
    start_attended small flush
  have flushed : Attended True s :=
    { first with always := fun _ => first.flush 0 (by rw [done]; rfl) }
  have last := guarded_invariant
    (fun _ _ _ inv meets happens => loopStep_attended inv meets happens) flushed small' reached
  have covered := last.always trivial q (by omega) two range i
  have present : 0 < listed t.queue q i := List.count_pos_iff.mpr held
  have grounded : flying t.queue q i = 0 := by
    apply List.countP_eq_zero.mpr
    intro e member here
    apply idle
    rw [← (of_decide_eq_true here).2]
    exact List.mem_map_of_mem member
  have some : 0 < timed t.queue q i := by omega
  obtain ⟨n, member, names⟩ := List.countP_pos_iff.mp some
  exact ⟨n, member, of_decide_eq_true names⟩

end Runs

section Scenario

open IecUtils.Queue.Timers

set_option maxRecDepth 4000

/-- The start, and the first SIGUSR1 until `indque` is zero. -/
def firstFlush : List LoopEvent :=
  [.scan [] [], .block, .ready, .next, .next, .sigusr1 [] [], .turn, .turn]

/-- A message that the sender could not deliver waits in queue 2 with its timer. -/
theorem deferred_timed_failure :
    ∃ s t, run loopStep daemon firstFlush = some s ∧
      run loopStep s ([.turn, .next] ++ dropped [5] ++ attempted 5 2) = some t ∧
      5 ∈ (t.queue.quelist 2).inodes ∧
      ∃ n ∈ t.queue.timerheap.nodes, n.indque = 2 ∧ definode n.inode = 5 := by
  have flush : run loopStep daemon firstFlush = some _ := rfl
  refine ⟨_, _, flush, rfl, by decide, ?_⟩
  exact deferred_timed (by decide) flush rfl (by decide)
    (rfl : run loopStep _ ([.turn, .next] ++ dropped [5] ++ attempted 5 2) = some _)
    (by decide) (by decide) (by decide) (by decide)

end Scenario

end IecUtils.Queue.Deferred
