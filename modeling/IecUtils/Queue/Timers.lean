/- Module: IecUtils/Queue/Timers
   source: quemngr/quemngr.c, quemngr/heapfunc.c
   digest: A message is put in flight twice only through a timer that stands for two messages. -/

import IecUtils.Queue.MainLoop

set_option autoImplicit false
set_option relaxedAutoImplicit false

namespace IecUtils.Queue.Timers

open IecUtils.Foundation.Transition
open IecUtils.Queue.Files
open IecUtils.Queue.Heap
open IecUtils.Queue.Control
open IecUtils.Queue.Manager
open IecUtils.Queue.Effects
open IecUtils.Queue.Conservation
open IecUtils.Queue.InFlight
open IecUtils.Queue.MainLoop

/-- A message that goes to a deferred queue gets a timer of its own: no timer of that
queue has the same 32 bits of an inode number, and no message of that queue has. -/
def Distinct (m : QueueState) : QueueEvent → Prop
  | .response i code _ =>
      code ≠ 0 → code ≠ 1 → ∀ e ∈ (m.quelist ACT).msg, e.inode = i → e.state < m.countq →
        (∀ n ∈ m.timerheap.nodes, n.indque = e.state + 1 → n.inode ≠ i.toUInt32) ∧
          ∀ j ∈ (m.quelist (e.state + 1)).inodes, j.toUInt32 ≠ i.toUInt32
  | _ => True

-- By the list; there is also an instance that runs through all inode numbers.
instance (inodes : List Ino) (i : Ino) :
    Decidable (∀ j ∈ inodes, j.toUInt32 ≠ i.toUInt32) :=
  List.decidableBAll (fun j : Ino => j.toUInt32 ≠ i.toUInt32) inodes

instance (m : QueueState) (e : QueueEvent) : Decidable (Distinct m e) :=
  match e with
  | .response i code _ =>
      inferInstanceAs (Decidable (code ≠ 0 → code ≠ 1 → ∀ e ∈ (m.quelist ACT).msg,
        e.inode = i → e.state < m.countq →
          (∀ n ∈ m.timerheap.nodes, n.indque = e.state + 1 → n.inode ≠ i.toUInt32) ∧
            ∀ j ∈ (m.quelist (e.state + 1)).inodes, j.toUInt32 ≠ i.toUInt32))
  | .arrive _ => isTrue trivial
  | .signal _ => isTrue trivial
  | .scan _ _ => isTrue trivial
  | .sendIn => isTrue trivial
  | .flushSend _ => isTrue trivial
  | .expire => isTrue trivial

def timerKey (n : HeapNode) : Nat × UInt32 := (n.indque, n.inode)

/-- Timers are told apart by their keys, and a message in flight has none, but for
those of the queue that `flush_queue` is at. -/
structure Timed (m : QueueState) (indque : Option Nat) : Prop where
  distinct : (m.timerheap.nodes.map timerKey).Nodup
  untimed : ∀ e ∈ (m.quelist ACT).msg, indque ≠ some e.state →
    (e.state, e.inode.toUInt32) ∉ m.timerheap.nodes.map timerKey
  below : ∀ q, indque = some q → ∀ e ∈ (m.quelist ACT).msg, e.state ≤ q

section Keys

theorem definode_toUInt32 (n : UInt32) : (definode n).toUInt32 = n := by
  apply UInt32.toNat_inj.mp
  have below := n.toNat_lt
  unfold definode
  split
  · simp
  · have high : (0xffffffff00000000 : UInt64).toNat = 0xffffffff00000000 := rfl
    rw [UInt64.toNat_toUInt32, UInt64.toNat_add, UInt32.toNat_toUInt64, high]
    omega

variable {m m' : QueueState} {indque : Option Nat}

private theorem Timed.shrink (h : Timed m indque)
    (act : (m'.quelist ACT).msg ⊆ (m.quelist ACT).msg)
    (nodup : (m'.timerheap.nodes.map timerKey).Nodup)
    (timers : m'.timerheap.nodes.map timerKey ⊆ m.timerheap.nodes.map timerKey) :
    Timed m' indque := by
  refine ⟨nodup, ?_, ?_⟩
  · intro e member outside timed
    exact h.untimed e (act member) outside (timers timed)
  · intro q here e member
    exact h.below q here e (act member)

private theorem Timed.same (h : Timed m indque) (act : m'.quelist ACT = m.quelist ACT)
    (timers : m'.timerheap = m.timerheap) : Timed m' indque := by
  refine h.shrink ?_ ?_ ?_
  · rw [act]
    exact List.Subset.refl _
  · rw [timers]
    exact h.distinct
  · rw [timers]
    exact List.Subset.refl _

private theorem extracted_keys {heap : TimerHeap} {node : HeapNode}
    (min : heapMin heap = some node) (distinct : (heap.nodes.map timerKey).Nodup) :
    timerKey node ∉ (heapExtractMin heap).nodes.map timerKey ∧
      ((heapExtractMin heap).nodes.map timerKey).Nodup ∧
      (heapExtractMin heap).nodes.map timerKey ⊆ heap.nodes.map timerKey := by
  have perm := (heapExtractMin_perm min).map timerKey
  rw [List.map_cons] at perm
  obtain ⟨gone, rest⟩ := List.nodup_cons.mp (perm.nodup_iff.mpr distinct)
  exact ⟨gone, rest, fun k member => perm.subset (List.mem_cons_of_mem _ member)⟩

private theorem attempt_idle {f : QueueEvent} {q : Nat} {i : Ino} {after : Option Nat}
    (spool : Spool m.disk.fs) (synced : Synced m) (flight : Flight m) (h : Timed m indque)
    (order : Serves m.countq indque f after) (attempt : Attempt m f q i) :
    i ∉ (m.quelist ACT).inodes := by
  intro busy
  cases attempt with
  | next queue may file _ =>
    exact next_idle spool synced flight queue may file busy
  | @timer node min listed =>
    -- The timer that expires is still in the heap.
    obtain ⟨e, member, inode⟩ := List.mem_map.mp busy
    have inside : node ∈ m.timerheap.nodes := List.mem_of_getElem? min
    obtain ⟨low, high⟩ := synced.timers node inside
    have state := flight_state spool synced flight member ⟨by omega, high⟩ (inode ▸ listed)
    cases order
    refine h.untimed e member (fun impossible => by cases impossible) ?_
    refine List.mem_map.mpr ⟨node, inside, ?_⟩
    rw [timerKey, state, inode, definode_toUInt32]

end Keys

section Steps

variable {m m' : QueueState} {f : QueueEvent} {before after : Option Nat}

private theorem Timed.serve (h : Timed m before) (synced : Synced m)
    (order : Serves m.countq before f after) : Timed m after := by
  cases order with
  | arrive => exact h
  | response => exact h
  | signal => exact h
  | scan => exact h
  | reconnect =>
    refine ⟨h.distinct, ?_, ?_⟩
    · intro e member _
      exact h.untimed e member (fun impossible => by cases impossible)
    · intro q here e member
      rw [← Option.some.inj here]
      exact (synced.active e member).2
  | sendIn => exact h
  | expire => exact h
  | flush => exact h

private theorem timed_dispatch {q : Nat} {i : Ino} (h : Timed m before) (queue : 1 ≤ q)
    (own : before ≠ some q → (q, i.toUInt32) ∉ m.timerheap.nodes.map timerKey)
    (range : ∀ r, before = some r → q ≤ r) : Timed (dispatch q i m) before := by
  refine ⟨h.distinct, ?_, ?_⟩
  · intro e member outside
    rw [dispatch_act _ _ (queue_ne_act queue)] at member
    rcases List.mem_append.mp member with old | new
    · exact h.untimed e old outside
    · rw [List.mem_singleton.mp new] at outside ⊢
      exact own outside
  · intro r here e member
    rw [dispatch_act _ _ (queue_ne_act queue)] at member
    rcases List.mem_append.mp member with old | new
    · exact h.below r here e old
    · rw [List.mem_singleton.mp new]
      exact range r here

private theorem timed_requeue {elem : Msg} {now : Timeval} {code : Int} {p : Point}
    {trail : List Point} (h : Timed m before) (synced : Synced m) (flight : Flight m)
    (member : elem ∈ (m.quelist ACT).msg)
    (free : ∀ n ∈ m.timerheap.nodes, n.indque = elem.state + 1 →
      n.inode ≠ elem.inode.toUInt32)
    (alone : ∀ j ∈ (m.quelist (elem.state + 1)).inodes,
      j.toUInt32 ≠ elem.inode.toUInt32) :
    Timed (requeue elem.state elem.inode now ((m.answer elem.inode code).onDisk p trail))
      before := by
  have low := (synced.active elem member).1
  have act : (requeue elem.state elem.inode now
      ((m.answer elem.inode code).onDisk p trail)).quelist ACT =
        elemDel (m.quelist ACT) elem.inode := requeue_act _ _ _ (queue_ne_act low)
  obtain ⟨key, perm⟩ := requeue_timers (s := elem.state)
    ((m.answer elem.inode code).onDisk p trail) elem.inode now
  have keys := perm.map timerKey
  have fresh : (elem.state + 1, elem.inode.toUInt32) ∉ m.timerheap.nodes.map timerKey := by
    intro inside
    obtain ⟨n, timer, same⟩ := List.mem_map.mp inside
    exact free n timer (congrArg Prod.fst same) (congrArg Prod.snd same)
  refine ⟨?_, ?_, ?_⟩
  · refine keys.nodup_iff.mpr ?_
    rw [List.map_cons]
    exact List.nodup_cons.mpr ⟨fresh, h.distinct⟩
  · intro e inside outside timed
    rw [act] at inside
    have old := elemDel_subset _ _ inside
    rcases List.mem_cons.mp (keys.subset timed) with new | kept
    · have state : e.state = elem.state + 1 := congrArg Prod.fst new
      have listed := flight.listed e old
      rw [state] at listed
      exact alone e.inode listed (congrArg Prod.snd new)
    · exact h.untimed e old outside kept
  · intro q here e inside
    rw [act] at inside
    exact h.below q here e (elemDel_subset _ _ inside)

private theorem outcome_timed (h : Timed m before) (synced : Synced m) (flight : Flight m)
    (order : Serves m.countq before f after) (distinct : Distinct m f)
    (outcome : Outcome m f m') : Timed m' before := by
  cases outcome with
  | idle => exact h
  | arrived => exact h.same rfl rfl
  | scanned => exact h.same (put_other _ _ (by decide)) rfl
  | @sent _ q i p trail queue _ _ _ cause =>
    refine timed_dispatch (h.same rfl rfl) queue.1 ?_ ?_
    · intro outside timed
      rcases cause with ⟨rfl, rfl⟩ | rfl
      · obtain ⟨n, inside, key⟩ := List.mem_map.mp timed
        have indque : n.indque = IN := congrArg Prod.fst key
        have deferred := (synced.timers n inside).1
        unfold IN at indque
        omega
      · cases order
        exact outside rfl
    · intro r here
      rcases cause with ⟨rfl, rfl⟩ | rfl
      · cases order
        cases here
      · cases order
        exact Nat.le_of_eq (Option.some.inj here)
  | expired min =>
    obtain ⟨_, rest, subset⟩ := extracted_keys min h.distinct
    exact h.shrink (List.Subset.refl _) rest subset
  | @fired node p trail min _ _ =>
    obtain ⟨gone, rest, subset⟩ := extracted_keys min h.distinct
    have low := (synced.timers node (List.mem_of_getElem? min)).1
    have without : Timed { (m.logCopy node.indque (definode node.inode) none).onDisk p trail with
        timerheap := heapExtractMin m.timerheap } before :=
      h.shrink (List.Subset.refl _) rest subset
    refine timed_dispatch without (by omega) ?_ ?_
    · intro _
      rw [definode_toUInt32]
      exact gone
    · intro r here
      cases order
      cases here
  | stray => exact h.same rfl rfl
  | confirmed member =>
    have low := (synced.active _ member).1
    exact h.same (put_other _ _ (Ne.symm (queue_ne_act low))) rfl
  | @settled elem _ _ p trail _ member _ _ _ =>
    have low := (synced.active elem member).1
    refine h.shrink ?_ h.distinct (List.Subset.refl _)
    rw [settle_act _ _ (queue_ne_act low)]
    exact elemDel_subset _ _
  | @requeued elem code now p trail member failed final below _ =>
    obtain ⟨free, alone⟩ := distinct failed final elem member rfl below
    exact timed_requeue h synced flight member free alone

end Steps

def Orderly (m : QueueState) (f : QueueEvent) : Prop := Answers m f ∧ Distinct m f

instance (m : QueueState) (f : QueueEvent) : Decidable (Orderly m f) :=
  inferInstanceAs (Decidable (_ ∧ _))

/-- What every state of the loop satisfies when all steps are orderly. -/
structure Watched (s : LoopState) : Prop where
  running : Running s
  flight : s.queue.exited = false → Flight s.queue
  timed : s.queue.exited = false → Timed s.queue s.place.indque
  idle : ∀ c ∈ s.queue.copies, c.busy = false

section Runs

variable {s t : LoopState} {e : LoopEvent} {fs : Fs} {deferred : Nat} {timeout : Nat → Nat}
  {restored : Nat → List Msg} {clock : Int}

private theorem operates_idle {f : QueueEvent} {after : Option Nat} {m' : QueueState}
    (h : Watched s) (living : s.queue.exited = false)
    (step : queueStep s.queue f = some m')
    (order : Serves s.queue.countq s.place.indque f after) :
    ∀ c ∈ m'.copies, c.busy = false := by
  have synced := h.running.conserved.synced living
  intro c member
  rcases queueStep_copies synced.incoming step with same | ⟨q, i, attempt, logged⟩
  · rw [same] at member
    exact h.idle c member
  · rw [logged] at member
    rcases List.mem_append.mp member with old | new
    · exact h.idle c old
    · rw [List.mem_singleton.mp new]
      refine decide_eq_false ?_
      exact attempt_idle h.running.conserved.recorded.now.spool synced (h.flight living)
        (h.timed living) order attempt

private theorem timed_descends {m : QueueState} {q : Nat} (h : Timed m (some (q + 1)))
    (flight : Flight m) (empty : (m.quelist (q + 1)).total ≤ 0) : Timed m (some q) := by
  have lower (e : Msg) (member : e ∈ (m.quelist ACT).msg) : e.state ≤ q := by
    have bound := h.below (q + 1) rfl e member
    by_contra above
    have last : e.state = q + 1 := by omega
    have listed := flight.listed e member
    rw [last, Msglist.inodes_of_empty empty] at listed
    cases listed
  refine ⟨h.distinct, ?_, ?_⟩
  · intro e member _
    refine h.untimed e member ?_
    intro same
    have state := Option.some.inj same
    have bound := lower e member
    omega
  · intro r here e member
    rw [← Option.some.inj here]
    exact lower e member

private theorem loopStep_watched (h : Watched s) (orderly : Lifted Orderly s e)
    (happens : loopStep s e = some t) : Watched t := by
  have living := loopStep_living happens
  have running := loopStep_running h.running happens
  have synced := h.running.conserved.synced living
  have spool := h.running.conserved.recorded.now.spool
  have flight := h.flight living
  have timed := h.timed living
  have flight' : t.queue.exited = false → Flight t.queue :=
    loopStep_flight h.running h.flight (fun f operation => (orderly f operation).1) happens
  cases loopStep_progress (h.running.steady living) happens with
  | @operates f operation step order armed =>
    have distinct := (orderly f operation).2
    refine ⟨running, flight', ?_, operates_idle h living step order⟩
    intro alive
    have outcome := queueStep_outcome spool synced step alive
    have kept := outcome_timed timed synced flight order distinct outcome
    refine kept.serve (f := f) (running.conserved.synced alive) ?_
    rw [outcome_countq outcome]
    exact order
  | rests operation same place wait =>
    refine ⟨running, flight', ?_, ?_⟩
    · intro _
      rw [same, place]
      exact timed
    · rw [same]
      exact h.idle
  | descends operation same before after empty wait =>
    refine ⟨running, flight', ?_, ?_⟩
    · intro _
      rw [before] at timed
      rw [same, after]
      exact timed_descends timed flight empty
    · rw [same]
      exact h.idle
  | leaves operation same before after wait =>
    refine ⟨running, flight', ?_, ?_⟩
    · intro _
      rw [before] at timed
      -- All queues are done, so that nothing is in flight.
      have none (e : Msg) (member : e ∈ (s.queue.quelist ACT).msg) : False := by
        have low := (synced.active e member).1
        have high := timed.below 0 rfl e member
        omega
      rw [same, after]
      refine ⟨timed.distinct, ?_, ?_⟩
      · intro e member
        exact absurd member (none e)
      · intro q here
        cases here
    · rw [same]
      exact h.idle

private theorem start_watched (spool : Spool fs) (lists : Restores fs deferred restored) :
    Watched (LoopState.start (initqueue fs deferred timeout restored) clock) := by
  have tracked : Tracked (initqueue fs deferred timeout restored) :=
    initqueue_tracked spool lists
  refine ⟨start_running tracked.conserved, tracked.flight, fun _ => ⟨?_, ?_, ?_⟩, ?_⟩
  · exact List.nodup_nil
  · intro e member
    cases member
  · intro q here
    cases here
  · intro c member
    cases member

/-- In every run of the daemon in which the sender answers and every message that goes
to a deferred queue gets a timer of its own, COPYFILE never meets a message that is
already in flight. -/
theorem copies_never_busy (spool : Spool fs) (lists : Restores fs deferred restored)
    {es : List LoopEvent}
    (orderly : Guarded loopStep (Lifted Orderly)
      (LoopState.start (initqueue fs deferred timeout restored) clock) es)
    (reached : run loopStep (LoopState.start (initqueue fs deferred timeout restored) clock) es =
      some s) :
    ∀ c ∈ s.queue.copies, c.busy = false :=
  (guarded_invariant (fun _ _ _ inv meets happens => loopStep_watched inv meets happens)
    (start_watched spool lists) orderly reached).idle

end Runs

section Scenarios

/-- A daemon with one deferred queue, of one minute, on an empty spool. -/
def daemon : LoopState := LoopState.start (initqueue [] 1 (fun _ => 60) fun _ => []) 0

def iteration (incoming responses signals : List LoopEvent) : List LoopEvent :=
  [.block, .ready] ++ incoming ++ responses ++ [.next] ++ signals ++ [.next]

def connect : List LoopEvent :=
  .scan [] [] :: iteration [.next] [] [.sigusr1 [] [], .turn, .turn, .turn]

def dropped (files : List Ino) : List LoopEvent :=
  files.map .arrive ++ iteration
    [.scan (files.map fun i => ⟨i.toNat, i, ⟨0, 0⟩⟩) (files.map fun i => ⟨i, ⟨0, 0⟩, IN⟩)] [] []

/-- A message is sent from `in` and answered. -/
def attempted (i : Ino) (code : Int) : List LoopEvent :=
  iteration [.next] [.response i 1, .response i code] []

/-- The connection comes back, and `flush_queue` delivers the one deferred message. -/
def reconnected (i : Ino) : List LoopEvent :=
  iteration [.next] []
    [.sighup, .sigusr1 [] [], .turn, .response i 1, .response i 0, .next, .turn, .turn, .turn]

set_option maxRecDepth 4000

theorem copies_never_busy_deferred :
    ∃ s, run loopStep daemon (connect ++ dropped [5] ++ attempted 5 2 ++ reconnected 5) = some s ∧
      s.queue.copies.length = 2 ∧ ∀ c ∈ s.queue.copies, c.busy = false := by
  have reached : run loopStep daemon
      (connect ++ dropped [5] ++ attempted 5 2 ++ reconnected 5) = some _ := rfl
  refine ⟨_, reached, rfl, ?_⟩
  exact copies_never_busy spool_nil (restores_nil 1) (by decide) reached

/-- The delivered message left its timer behind. A new file with the same inode number
fails as well and gets a second timer; the first one sends it, and while it is in flight
the second one sends it again. -/
def staleTimer : List LoopEvent :=
  connect ++ dropped [5] ++ attempted 5 2 ++ reconnected 5 ++ [.pass 1000000] ++
    dropped [5, 6] ++ attempted 5 2 ++ [.pass 1000000] ++ attempted 6 2 ++
    [.block, .pass 60000000, .timeout] ++ iteration [.next] [.response 5 1] [] ++
    [.block, .pass 1000000, .timeout]

theorem copy_busy :
    Guarded loopStep (Lifted Answers) daemon staleTimer ∧
      ∃ s, run loopStep daemon staleTimer = some s ∧ s.queue.exited = true ∧
        ∃ c ∈ s.queue.copies, c.busy = true ∧ c.error = some .exist := by
  refine ⟨by decide, ?_⟩
  have reached : run loopStep daemon staleTimer = some _ := rfl
  refine ⟨_, reached, rfl, ?_⟩
  exact ⟨⟨2, 5, true, some .exist⟩, List.mem_of_getElem? (i := 5) rfl, rfl, rfl⟩

end Scenarios

end IecUtils.Queue.Timers
