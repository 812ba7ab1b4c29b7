/- Module: IecUtils/Queue/Deadline
   source: main of quemngr/quemngr.c, heap_min and heap_insert of quemngr/heapfunc.c, calctimeout of quemngr/utils.c
   digest: When poll times out, minnode is the least timer and its key is due. -/

import IecUtils.Queue.Setup
import IecUtils.Queue.Timers

set_option autoImplicit false
set_option relaxedAutoImplicit false

namespace IecUtils.Queue.Deadline

open IecUtils.Foundation.Transition
open IecUtils.Queue.Files
open IecUtils.Queue.Heap
open IecUtils.Queue.Control
open IecUtils.Queue.Manager
open IecUtils.Queue.Effects
open IecUtils.Queue.Conservation
open IecUtils.Queue.MainLoop
open IecUtils.Queue.Setup
open IecUtils.Queue.Timers

/-- The loop with its pointer `minnode`. The memory of the heap's nodes is counted by
`block`, which changes when `heap_insert` resizes it; `minnode` is null, or the address
of the first node in one of these blocks. -/
structure Pointed where
  loop : LoopState
  block : Nat
  minnode : Option Nat

def Pointed.start (queue : QueueState) (clock : Int) : Pointed := ⟨LoopState.start queue clock, 0, none⟩

/-- Where `minnode` points after an event: the block before `poll` takes `heap_min`
whenever it computes a timeout from the heap. -/
def Pointed.aim (p : Pointed) (e : LoopEvent) : Option Nat :=
  match e with
  | .block =>
      if p.loop.isconnect ∧ (p.loop.wait > 0 ∨ p.loop.queue.timerheap.nodecount ≠ 0) then some p.block
      else p.minnode
  | _ => p.minnode

def pointedStep (p : Pointed) (e : LoopEvent) : Option Pointed :=
  (loopStep p.loop e).map fun t =>
    { loop := t
      block := if t.queue.timerheap.maxsize = p.loop.queue.timerheap.maxsize then p.block else p.block + 1
      minnode := p.aim e }

/-- What the branch for a timeout relies on. -/
structure Live (p : Pointed) : Prop where
  minimum : ∃ node, heapMin p.loop.queue.timerheap = some node ∧
    (∀ n ∈ p.loop.queue.timerheap.nodes, node.key.micros ≤ n.key.micros) ∧
    node.key.micros < p.loop.clock + 1000
  pointer : p.minnode = some p.block

section Heaps

variable {m m' : QueueState} {f : QueueEvent}

/-- The heap is the same, or has a timer more, which ends at `limit` at the latest. -/
inductive Grows (limit : Int) (h : TimerHeap) : TimerHeap → Prop
  | same : Grows limit h h
  | more (key : Timeval) (indque : Nat) (inode : UInt32) (normal : key.normal)
      (soon : key.micros ≤ limit) : Grows limit h (heapInsert h key indque inode)

variable {limit : Int}

theorem Grows.ordered {h h' : TimerHeap} (grows : Grows limit h h')
    (ordered : HeapOrdered h.nodes) : HeapOrdered h'.nodes := by
  cases grows with
  | same => exact ordered
  | more key indque inode normal => exact heapInsert_ordered ordered normal indque inode

theorem Grows.limited {h h' : TimerHeap} (grows : Grows limit h h')
    (limited : ∀ n ∈ h.nodes, n.key.micros ≤ limit) : ∀ n ∈ h'.nodes, n.key.micros ≤ limit := by
  cases grows with
  | same => exact limited
  | more key indque inode _ soon =>
    intro n member
    rcases List.mem_cons.mp ((heapInsert_perm h key indque inode).subset member) with rfl | old
    · exact soon
    · exact limited n old

theorem Grows.minimum {h h' : TimerHeap} (grows : Grows limit h h') (ordered : HeapOrdered h.nodes)
    {deadline : Int} (due : ∃ node, heapMin h = some node ∧ node.key.micros < deadline) :
    ∃ node, heapMin h' = some node ∧ node.key.micros < deadline := by
  have after := grows.ordered ordered
  cases grows with
  | same => exact due
  | more key indque inode normal _ =>
    obtain ⟨node, min, before⟩ := due
    have present : node ∈ (heapInsert h key indque inode).nodes := by
      refine (heapInsert_perm h key indque inode).symm.subset (List.mem_cons_of_mem _ ?_)
      exact List.mem_of_getElem? min
    cases root : heapMin (heapInsert h key indque inode) with
    | none =>
      have empty := List.getElem?_eq_none_iff.mp root
      have filled := List.length_pos_of_mem present
      omega
    | some first => exact ⟨first, rfl, lt_of_le_of_lt (heapMin_least after root present) before⟩

private theorem put_timeout {p : Nat} {l : Msglist} (same : l.timeout = (m.quelist p).timeout)
    (q : Nat) : ((m.put p l).quelist q).timeout = (m.quelist q).timeout := by
  by_cases here : q = p
  · rw [here, put_same, same]
  · rw [put_other _ _ here]

private theorem dispatch_timeout (p : Nat) (i : Ino) (m : QueueState) (q : Nat) :
    ((dispatch p i m).quelist q).timeout = (m.quelist q).timeout := by
  refine (put_timeout ?_ q).trans (put_timeout ?_ q)
  · rfl
  · rfl

private theorem settle_timeout (p : Nat) (i : Ino) (m : QueueState) (q : Nat) :
    ((settle p i m).quelist q).timeout = (m.quelist q).timeout := by
  refine (put_timeout ?_ q).trans ((put_timeout ?_ q).trans (put_timeout ?_ q))
  · rfl
  · rfl
  · rfl

private theorem requeue_timeout (p : Nat) (i : Ino) (now : Timeval) (m : QueueState) (q : Nat) :
    ((requeue p i now m).quelist q).timeout = (m.quelist q).timeout := by
  refine (settle_timeout _ _ _ q).trans (put_timeout ?_ q)
  rfl

theorem outcome_timeout (outcome : Outcome m f m') (q : Nat) :
    (m'.quelist q).timeout = (m.quelist q).timeout := by
  cases outcome with
  | idle => rfl
  | arrived => rfl
  | scanned => exact put_timeout (by rfl) q
  | sent => exact dispatch_timeout _ _ _ q
  | expired => rfl
  | fired => exact dispatch_timeout _ _ _ q
  | stray => rfl
  | confirmed => exact put_timeout (by rfl) q
  | settled => exact settle_timeout _ _ _ q
  | requeued => exact requeue_timeout _ _ _ _ q

def latest (clock : Int) : Int := clock + longest * 1000000

theorem outcome_grows (outcome : Outcome m f m') (other : f ≠ .expire)
    (timeouts : ∀ q, ((m.quelist q).timeout : Int) ≤ longest) {clock : Int}
    (reads : ∀ i code now, f = .response i code now → now.normal ∧ now.micros = clock) :
    Grows (latest clock) m.timerheap m'.timerheap := by
  cases outcome with
  | expired => exact absurd rfl other
  | fired => exact absurd rfl other
  | @requeued elem code now =>
    obtain ⟨normal, micros⟩ := reads elem.inode code now rfl
    refine .more _ _ _ normal ?_
    have longer : ((m.quelist (elem.state + 1)).timeout : Int) ≤ longest := timeouts _
    rw [settle_timeout, put_timeout (by rfl)]
    unfold Timeval.micros at micros ⊢
    unfold latest
    dsimp only [QueueState.onDisk, QueueState.answer]
    omega
  | _ => exact .same

theorem outcome_expired (outcome : Outcome m .expire m') (ordered : HeapOrdered m.timerheap.nodes) :
    HeapOrdered m'.timerheap.nodes ∧ m'.timerheap.nodes ⊆ m.timerheap.nodes := by
  cases outcome with
  | idle => exact ⟨ordered, List.Subset.refl _⟩
  | expired min =>
    exact ⟨heapExtractMin_ordered ordered,
      fun n member => (heapExtractMin_perm min).subset (List.mem_cons_of_mem _ member)⟩
  | fired min =>
    exact ⟨heapExtractMin_ordered ordered,
      fun n member => (heapExtractMin_perm min).subset (List.mem_cons_of_mem _ member)⟩
  | sent _ _ _ _ cause =>
    rcases cause with ⟨same, _⟩ | same
    · cases same
    · cases same

theorem getmonotime_normal (clock : Int) : (getmonotime clock).normal := by
  unfold getmonotime Timeval.normal
  dsimp only
  omega

theorem getmonotime_micros (clock : Int) : (getmonotime clock).micros = clock := by
  unfold getmonotime Timeval.micros
  dsimp only
  omega

end Heaps

section Timeout

variable {heap : TimerHeap} {clock wait w : Int}

theorem le_toInt32 {n : Int} (fits : n < 2 ^ 31) : n ≤ toInt32 n := by
  have low := Int.le_bmod (x := n) (show 0 < 2 ^ 32 by decide)
  have whole := Int.bmod_add_bdiv n (2 ^ 32)
  unfold toInt32
  omega

/-- The key is at most as many milliseconds away as `remaining` says, and not one more.
A timer that is overdue by more than an `int` holds only seems further away. -/
theorem before_remaining {key : Timeval} (soon : key.micros ≤ latest clock) :
    key.micros < clock + (remaining key (getmonotime clock) + 1) * 1000 := by
  have distance : remaining key (getmonotime clock) = toInt32 ((key.micros - clock).tdiv 1000) := by
    have now := getmonotime_micros clock
    unfold remaining
    unfold Timeval.micros at now ⊢
    congr 2
    omega
  have exact := Int.lt_tdiv_add_one_mul_self (key.micros - clock) (show (0 : Int) < 1000 by decide)
  have fits : (key.micros - clock).tdiv 1000 < 2 ^ 31 := by
    have distant : key.micros - clock ≤ longest * 1000000 := by
      unfold latest at soon
      omega
    calc (key.micros - clock).tdiv 1000
        ≤ (longest * 1000000).tdiv 1000 := Int.tdiv_le_tdiv (by decide) distant
      _ < 2 ^ 31 := by decide
  have more := le_toInt32 fits
  rw [distance]
  omega

theorem overdue {key : Timeval} (soon : key.micros ≤ latest clock)
    (negative : remaining key (getmonotime clock) < 0) : key.micros < clock := by
  have bound := before_remaining soon
  omega

/-- The minimum is due when the timeout for `poll` has passed. -/
def Near (heap : TimerHeap) (clock wait : Int) : Prop :=
  ∃ node, heapMin heap = some node ∧ node.key.micros < clock + (wait + 1) * 1000

theorem Near.later (h : Near heap clock wait) {clock' : Int} (later : clock ≤ clock') :
    Near heap clock' wait := by
  obtain ⟨node, min, before⟩ := h
  exact ⟨node, min, by omega⟩

theorem pollWait_near (limited : ∀ n ∈ heap.nodes, n.key.micros ≤ latest clock)
    (before : 0 < wait → Near heap clock wait) (found : pollWait heap clock wait = some w)
    (finite : 0 ≤ w) : Near heap clock w ∧ (wait > 0 ∨ heap.nodecount ≠ 0) := by
  unfold pollWait at found
  split at found
  · rename_i positive
    obtain ⟨node, min, was⟩ := before positive
    refine ⟨⟨node, min, ?_⟩, Or.inl positive⟩
    rw [min, Option.map_some, Option.some.injEq] at found
    dsimp only at found
    have soon := limited node (List.mem_of_getElem? min)
    have bound := before_remaining soon
    generalize same : remaining node.key (getmonotime clock) = nearest at found bound
    by_cases late : nearest < 0
    · have past := overdue soon (same ▸ late)
      omega
    · rw [if_neg late] at found
      split at found
      · omega
      · omega
  · split at found
    · rename_i filled
      cases min : heapMin heap with
      | none =>
        rw [min] at found
        cases found
      | some node =>
        refine ⟨⟨node, min, ?_⟩, Or.inr filled⟩
        rw [min, Option.map_some, Option.some.injEq] at found
        dsimp only at found
        have bound := before_remaining (limited node (List.mem_of_getElem? min))
        unfold deltausec at found
        split at found
        · omega
        · omega
    · have unlimited := Option.some.inj found
      omega

end Timeout

section Steps

variable {s t : LoopState} {e : LoopEvent}

/-- What a step does to the timeout, the place and the clock. -/
inductive Moves (s t : LoopState) : LoopEvent → Prop
  | waits {e : LoopEvent} (quiet : e ≠ .block) (early : e ≠ .timeout) (wait : t.wait = s.wait)
      (connected : t.isconnect = s.isconnect) (place : t.place = s.place)
      (polled : t.polled = s.polled)
      (clock : s.clock ≤ t.clock) (heap : t.queue.timerheap = s.queue.timerheap) : Moves s t e
  | block (top : s.place = .top) (same : t = beforePoll s) : Moves s t .block
  | timeout (poll : s.place = .poll) (finite : 0 ≤ s.wait)
      (passed : s.polled + s.wait * 1000 ≤ s.clock) (wait : t.wait = -1) (clock : t.clock = s.clock)
      (place : t.place ≠ .poll) : Moves s t .timeout
  | onward {e : LoopEvent} (early : e ≠ .timeout) (wait : t.wait = s.wait)
      (connected : t.isconnect = false → s.isconnect = false) (clock : t.clock = s.clock)
      (place : t.place ≠ .poll) : Moves s t e
  | hangup {e : LoopEvent} (early : e ≠ .timeout) (wait : t.wait = -1) (clock : t.clock = s.clock)
      (place : t.place ≠ .poll) : Moves s t e

private theorem loopScan_moves {entries : List Dirent} {sorted : List Msg} {place : Place}
    {fds : LoopState} (early : e ≠ .timeout) (wait : fds.wait = s.wait)
    (connected : fds.isconnect = false → s.isconnect = false) (clock : fds.clock = s.clock)
    (away : place ≠ .poll) (happens : loopScan entries sorted place fds = some t) :
    Moves s t e := by
  unfold loopScan at happens
  split at happens
  · obtain rfl := Option.some.inj happens
    exact .onward early wait connected clock away
  · cases happens

theorem loopStep_moves (happens : loopStep s e = some t) : Moves s t e := by
  have living := loopStep_living happens
  unfold loopStep at happens
  rw [living] at happens
  simp only [Bool.false_eq_true, if_false] at happens
  split at happens
  · split at happens
    · obtain rfl := Option.some.inj happens
      exact .waits (by simp) (by simp) rfl rfl rfl rfl (Int.le_refl _) rfl
    · cases happens
  · obtain rfl := Option.some.inj happens
    exact .waits (by simp) (by simp) rfl rfl rfl rfl (by dsimp only; omega) rfl
  · exact loopScan_moves (by simp) rfl id rfl (by simp) happens
  · rename_i top
    exact .block top (Option.some.inj happens).symm
  · rename_i poll
    split at happens
    · rename_i passed
      obtain rfl := Option.some.inj happens
      exact .timeout poll passed.1 passed.2 rfl rfl (by simp)
    · cases happens
  · obtain rfl := Option.some.inj happens
    exact .onward (by simp) rfl id rfl (by simp)
  · split at happens
    · exact loopScan_moves (by simp) rfl id rfl (by simp) happens
    · cases happens
  · obtain rfl := Option.some.inj happens
    exact .onward (by simp) rfl id rfl (by simp)
  · rename_i place
    split at happens
    · obtain rfl := Option.some.inj happens
      exact .onward (by simp) rfl id rfl (by simp [loopResponse, place])
    · cases happens
  · obtain rfl := Option.some.inj happens
    exact .onward (by simp) rfl id rfl (by simp)
  · rename_i place
    obtain rfl := Option.some.inj happens
    exact .hangup (by simp) rfl rfl (by simp [place])
  · refine loopScan_moves (by simp) ?_ ?_ ?_ (by simp) happens
    · rfl
    · intro down
      cases down
    · rfl
  · obtain rfl := Option.some.inj happens
    unfold flushTurn
    split
    · exact .onward (by simp) rfl id rfl (by simp)
    · split
      · exact .onward (by simp) rfl id rfl (by simp)
      · exact .onward (by simp) rfl id rfl (by simp)
  · rename_i place
    obtain rfl := Option.some.inj happens
    exact .onward (by simp) rfl id rfl (by simp [loopResponse, place])
  · obtain rfl := Option.some.inj happens
    exact .onward (by simp) rfl id rfl (by simp)
  · obtain rfl := Option.some.inj happens
    exact .onward (by simp) rfl id rfl (by simp)
  · cases happens

theorem Moves.clock (moves : Moves s t e) : s.clock ≤ t.clock := by
  cases moves with
  | waits _ _ _ _ _ _ clock _ => exact clock
  | block _ same =>
    rw [same]
    unfold beforePoll
    dsimp only
    split
    · split
      · exact Int.le_refl _
      · exact Int.le_refl _
    · exact Int.le_refl _
  | timeout _ _ _ _ clock _ => exact Int.le_of_eq clock.symm
  | onward _ _ _ clock _ => exact Int.le_of_eq clock.symm
  | hangup _ _ clock _ => exact Int.le_of_eq clock.symm

/-- The heap is one, no timer ends later than the longest timeout from now, and no queue has
a longer one. -/
structure Timed (s : LoopState) : Prop where
  timeouts : ∀ q, ((s.queue.quelist q).timeout : Int) ≤ longest
  ordered : HeapOrdered s.queue.timerheap.nodes
  limited : ∀ n ∈ s.queue.timerheap.nodes, n.key.micros ≤ latest s.clock

theorem loopStep_heap (h : Running s) (timed : Timed s) (happens : loopStep s e = some t)
    (alive : t.queue.exited = false) :
    (e ≠ .timeout → Grows (latest s.clock) s.queue.timerheap t.queue.timerheap) ∧ Timed t := by
  have living := loopStep_living happens
  have later := (loopStep_moves happens).clock
  have same (queue : t.queue = s.queue) :
      (e ≠ .timeout → Grows (latest s.clock) s.queue.timerheap t.queue.timerheap) ∧ Timed t := by
    refine ⟨fun _ => queue ▸ .same, ?_, ?_, ?_⟩
    · rw [queue]
      exact timed.timeouts
    · rw [queue]
      exact timed.ordered
    · rw [queue]
      intro n member
      have before := timed.limited n member
      unfold latest at before ⊢
      omega
  cases loopStep_progress (h.steady living) happens with
  | @operates f operation step =>
    have synced := h.conserved.synced living
    have outcome := queueStep_outcome h.conserved.recorded.now.spool synced step alive
    obtain ⟨expires, responds⟩ := operation_origin operation
    have reads : ∀ i code now, f = .response i code now → now.normal ∧ now.micros = s.clock := by
      rintro i code now rfl
      obtain rfl := responds i code now rfl
      injection Option.some.inj operation with _ _ time
      rw [← time]
      exact ⟨getmonotime_normal s.clock, getmonotime_micros s.clock⟩
    have timeouts : ∀ q, ((t.queue.quelist q).timeout : Int) ≤ longest := by
      intro q
      rw [outcome_timeout outcome q]
      exact timed.timeouts q
    have limited (below : ∀ n ∈ t.queue.timerheap.nodes, n.key.micros ≤ latest s.clock) :
        ∀ n ∈ t.queue.timerheap.nodes, n.key.micros ≤ latest t.clock := by
      intro n member
      have before := below n member
      unfold latest at before ⊢
      omega
    by_cases expiry : f = .expire
    · subst expiry
      obtain ⟨ordered, subset⟩ := outcome_expired outcome timed.ordered
      exact ⟨fun other => absurd (expires rfl) other, timeouts, ordered,
        limited fun n member => timed.limited n (subset member)⟩
    · have grows := outcome_grows outcome expiry timed.timeouts reads
      exact ⟨fun _ => grows, timeouts, grows.ordered timed.ordered,
        limited (grows.limited timed.limited)⟩
  | rests _ queue => exact same queue
  | descends _ queue => exact same queue
  | leaves _ queue => exact same queue

end Steps

section Runs

/-- The invariant: without a connection `poll` waits for ever, and as long as there is a
timeout the least timer is near. -/
structure Due (p : Pointed) : Prop where
  disconnected : p.loop.isconnect = false → p.loop.wait = -1
  timed : Timed p.loop
  near : 0 < p.loop.wait → Near p.loop.queue.timerheap p.loop.clock p.loop.wait
  polling : p.loop.place = .poll → 0 ≤ p.loop.wait → p.minnode = some p.block ∧
    Near p.loop.queue.timerheap p.loop.polled p.loop.wait

variable {p p' : Pointed} {e : LoopEvent}

private theorem sendNext_heap (q : Nat) (m : QueueState) :
    (sendNext q m).timerheap = m.timerheap := by
  unfold sendNext
  split
  · split
    · rfl
    · unfold sendFile perform
      split
      · rfl
      · rfl
  · rfl

private theorem due_block (h : Due p) (same : p'.loop = beforePoll p.loop) (timed : Timed p'.loop)
    (alive : p'.loop.queue.exited = false)
    (block : p'.loop.queue.timerheap = p.loop.queue.timerheap → p'.block = p.block)
    (aim : p'.minnode = p.aim .block) : Due p' := by
  cases connected : p.loop.isconnect with
  | false =>
    have fields : p'.loop.wait = p.loop.wait ∧ p'.loop.queue = p.loop.queue := by
      rw [same]
      simp [beforePoll, connected]
    have wait : p'.loop.wait = -1 := fields.1.trans (h.disconnected connected)
    refine ⟨fun _ => wait, timed, fun positive => ?_, fun _ finite => ?_⟩
    · omega
    · omega
  | true =>
    cases found : pollWait p.loop.queue.timerheap p.loop.clock p.loop.wait with
    | none =>
      rw [same, beforePoll, connected, found] at alive
      cases alive
    | some w =>
      have heap : p'.loop.queue.timerheap = p.loop.queue.timerheap := by
        rw [same, beforePoll, connected, found]
        exact sendNext_heap IN p.loop.queue
      have fields : p'.loop.isconnect = true ∧ p'.loop.wait = w ∧ p'.loop.clock = p.loop.clock ∧
          p'.loop.polled = p.loop.clock := by
        rw [same]
        simp [beforePoll, connected, found]
      obtain ⟨up, wait, clock, polled⟩ := fields
      have near := pollWait_near h.timed.limited h.near found
      refine ⟨?_, timed, ?_, ?_⟩
      · intro down
        rw [up] at down
        cases down
      · rw [heap, wait, clock]
        exact fun positive => (near (by omega)).1
      · rw [heap, wait, polled, aim, block heap]
        intro _ finite
        obtain ⟨soon, timed⟩ := near finite
        refine ⟨?_, soon⟩
        unfold Pointed.aim
        rw [if_pos ⟨connected, timed⟩]

theorem pointedStep_due (running : Running p.loop) (h : Due p) (happens : pointedStep p e = some p')
    (alive : p'.loop.queue.exited = false) : Due p' := by
  obtain ⟨t, step, rfl⟩ := Option.map_eq_some_iff.mp happens
  obtain ⟨heap, timed⟩ := loopStep_heap running h.timed step alive
  have gone (wait : t.wait = -1) (place : t.place ≠ .poll) : Due
      { loop := t
        block := if t.queue.timerheap.maxsize = p.loop.queue.timerheap.maxsize then p.block
          else p.block + 1
        minnode := p.aim e } := by
    refine ⟨fun _ => wait, timed, fun positive => ?_, fun poll => absurd poll place⟩
    dsimp only at positive
    omega
  cases loopStep_moves step with
  | waits quiet _ wait connected place polled clock same =>
    refine ⟨?_, timed, ?_, ?_⟩
    · dsimp only
      rw [connected, wait]
      exact h.disconnected
    · dsimp only
      rw [wait, same]
      exact fun positive => (h.near positive).later clock
    · dsimp only
      rw [place, wait, polled, same, if_pos rfl]
      intro poll finite
      obtain ⟨pointer, near⟩ := h.polling poll finite
      refine ⟨?_, near⟩
      unfold Pointed.aim
      split
      · exact absurd rfl quiet
      · exact pointer
  | block top same =>
    refine due_block h same timed alive ?_ rfl
    intro heap
    dsimp only at heap ⊢
    rw [if_pos (congrArg TimerHeap.maxsize heap)]
  | timeout _ _ _ wait _ place => exact gone wait place
  | hangup _ wait _ place => exact gone wait place
  | onward early wait connected clock place =>
    refine ⟨?_, timed, ?_, fun poll => absurd poll place⟩
    · dsimp only
      rw [wait]
      exact fun down => h.disconnected (connected down)
    · dsimp only
      rw [wait, clock]
      intro positive
      exact (heap early).minimum h.timed.ordered (h.near positive)

theorem pointedStep_running (running : Running p.loop) (happens : pointedStep p e = some p') :
    Running p'.loop := by
  obtain ⟨t, step, rfl⟩ := Option.map_eq_some_iff.mp happens
  exact loopStep_running running step

/-- The loop never follows a null pointer for the minimum, and a timeout of `poll` finds
`minnode` at a minimum that is due. -/
structure Deadlines (p : Pointed) : Prop where
  present : p.loop.queue.exited = false → p.loop.place = .top →
    pollWait p.loop.queue.timerheap p.loop.clock p.loop.wait ≠ none
  live : ∀ p', pointedStep p .timeout = some p' → Live p

theorem Due.live (h : Due p) (happens : pointedStep p .timeout = some p') : Live p := by
  obtain ⟨t, step, _⟩ := Option.map_eq_some_iff.mp happens
  cases loopStep_moves step with
  | waits _ early _ _ _ _ _ _ => exact absurd rfl early
  | onward early _ _ _ _ => exact absurd rfl early
  | hangup early _ _ _ => exact absurd rfl early
  | timeout poll finite passed _ _ _ =>
    obtain ⟨pointer, node, min, before⟩ := h.polling poll finite
    refine ⟨⟨node, min, fun n member => heapMin_least h.timed.ordered min member, ?_⟩, pointer⟩
    omega

variable {fs : Fs} {deferred : Nat} {timeout : Nat → Nat} {restored : Nat → List Msg} {clock : Int}

/-- The timeouts of the queues are those of directories, or 0 for `act` and `in`. -/
def Named (timeout : Nat → Nat) : Prop :=
  ∀ q, timeout q = 0 ∨ ∃ dir, (timeout q : Int) = calctimeout dir

theorem Named.le (named : Named timeout) (q : Nat) : (timeout q : Int) ≤ longest := by
  rcases named q with zero | ⟨dir, same⟩
  · rw [zero]
    decide
  · rw [same]
    exact calctimeout_le dir

private theorem start_due (fs : Fs) (deferred : Nat) (named : Named timeout)
    (restored : Nat → List Msg) (clock : Int) :
    Due (Pointed.start (initqueue fs deferred timeout restored) clock) where
  disconnected _ := rfl
  timed := ⟨named.le, heapCreate_ordered timerheapsize, fun n member => by cases member⟩
  near positive := by
    have never : (0 : Int) < -1 := positive
    omega
  polling poll := by cases poll

/-- In every state that the loop reaches, whatever it is told by clock, descriptors,
responses and signals. -/
theorem deadlines_reached (spool : Spool fs) (lists : Restores fs deferred restored)
    (named : Named timeout) {es : List LoopEvent}
    (reached :
      run pointedStep (Pointed.start (initqueue fs deferred timeout restored) clock) es = some p) :
    Deadlines p := by
  have start : Running (Pointed.start (initqueue fs deferred timeout restored) clock).loop :=
    start_running (initqueue_conserved spool lists)
  have invariant : Running p.loop ∧ (p.loop.queue.exited = false → Due p) := by
    refine run_invariant (I := fun p => Running p.loop ∧ (p.loop.queue.exited = false → Due p)) ?_
      ⟨start, fun _ => start_due fs deferred named restored clock⟩ reached
    rintro p e p' ⟨running, due⟩ happens
    refine ⟨pointedStep_running running happens, pointedStep_due running (due ?_) happens⟩
    obtain ⟨t, step, _⟩ := Option.map_eq_some_iff.mp happens
    exact loopStep_living step
  obtain ⟨running, due⟩ := invariant
  refine ⟨fun alive _ => pollWait_ne_none (running.steady alive).armed, fun p' happens => ?_⟩
  obtain ⟨t, step, _⟩ := Option.map_eq_some_iff.mp happens
  exact (due (loopStep_living step)).live happens

set_option maxRecDepth 4000

/-- A message fails at once and waits for its minute. -/
theorem deadlines_reached_minute :
    ∃ p p', run pointedStep (Pointed.start (initqueue [] 1 (fun _ => 60) fun _ => []) 0)
        (connect ++ dropped [5] ++ attempted 5 2 ++ [.block, .pass 60000000]) = some p ∧
      p.loop.wait = 60000 ∧ pointedStep p .timeout = some p' ∧ Live p := by
  have reached : run pointedStep (Pointed.start (initqueue [] 1 (fun _ => 60) fun _ => []) 0)
      (connect ++ dropped [5] ++ attempted 5 2 ++ [.block, .pass 60000000]) = some _ := rfl
  have minute : ((60 : Nat) : Int) = calctimeout "0h0m60s".toList := by decide
  refine ⟨_, _, reached, rfl, rfl, ?_⟩
  have named : Named fun _ => 60 := fun _ => Or.inr ⟨_, minute⟩
  exact (deadlines_reached spool_nil (restores_nil 1) named reached).live _ rfl

end Runs

end IecUtils.Queue.Deadline
