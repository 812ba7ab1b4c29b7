/- Module: IecUtils/Queue/MainLoop
   source: main and flush_queue of quemngr/quemngr.c
   digest: The poll loop of quemngr with its timers and signals runs the queue operations in a certain order. -/

import IecUtils.Queue.InFlight

set_option autoImplicit false
set_option relaxedAutoImplicit false

namespace IecUtils.Queue.MainLoop

open IecUtils.Foundation.Transition
open IecUtils.Queue.Files
open IecUtils.Queue.Heap
open IecUtils.Queue.Control
open IecUtils.Queue.Manager
open IecUtils.Queue.Effects
open IecUtils.Queue.Conservation
open IecUtils.Queue.InFlight

/-- In milliseconds, in spite of its name. -/
def deltausec : Int := 25

/-- The monotonic clock, in microseconds, as `getmonotime` splits it. -/
def getmonotime (clock : Int) : Timeval := ⟨clock / 1000000, clock % 1000000⟩

/-- Conversion to `int`. -/
def toInt32 (n : Int) : Int := n.bmod (2 ^ 32)

/-- The milliseconds from `now` to `key`, of a `long`, in an `int`; the division of C
truncates. -/
def remaining (key now : Timeval) : Int :=
  toInt32 ((((key.sec - now.sec) * 1000000 + key.usec) - now.usec).tdiv 1000)

/-- The timeout for `poll`. A negative `wait` blocks, and `none` is the null pointer
`heap_min` gives for an empty heap. -/
def pollWait (heap : TimerHeap) (clock wait : Int) : Option Int :=
  if wait > 0 then
    (heapMin heap).map fun minnode =>
      let nearest := remaining minnode.key (getmonotime clock)
      let nearest := if nearest < 0 then deltausec else nearest
      if wait > nearest then nearest else wait
  else if heap.nodecount ≠ 0 then
    (heapMin heap).map fun minnode =>
      let wait := remaining minnode.key (getmonotime clock)
      if wait ≤ 0 then deltausec else wait
  else some (-1)

/-- Where the process is. In `flush q` and `drain q` the loop of `flush_queue` is at
`indque = q`, before a turn and reading responses. -/
inductive Place where
  | init
  | top
  | poll
  | trigger
  | pipe
  | signals
  | flush (q : Nat)
  | drain (q : Nat)
  deriving DecidableEq

/-- The variables of `main`; `trigfd` and `pipefd` say whether `fds[0]` and `fds[1]`
are watched, and `polled` is when `poll` was called. -/
structure LoopState where
  queue : QueueState
  place : Place
  isconnect : Bool
  wait : Int
  trigfd : Bool
  pipefd : Bool
  clock : Int
  polled : Int

def LoopState.start (queue : QueueState) (clock : Int) : LoopState where
  queue := queue
  place := .init
  isconnect := false
  wait := -1
  trigfd := false
  pipefd := false
  clock := clock
  polled := clock

inductive LoopEvent where
  /-- Another program drops a file. -/
  | arrive (i : Ino)
  | pass (usec : Nat)
  /-- The block before `poll`. -/
  | block
  /-- `poll` returns 0. -/
  | timeout
  /-- `poll` returns the number of descriptors that are ready. -/
  | ready
  | scan (entries : List Dirent) (sorted : List Msg)
  /-- `fscanf` reads a response. -/
  | response (i : Ino) (code : Int)
  | sighup
  | sigusr1 (entries : List Dirent) (sorted : List Msg)
  /-- A turn of the loops in `flush_queue`. -/
  | turn
  /-- There is nothing more to do here. -/
  | next

/-- The IN branch and the timeout for `poll`. -/
def beforePoll (s : LoopState) : LoopState :=
  if s.isconnect then
    let trigfd :=
      if mayTransmit s.queue IN winsize then false
      else if (s.queue.quelist IN).total = (s.queue.quelist IN).send then true
      else s.trigfd
    let queue := sendNext IN s.queue
    match pollWait s.queue.timerheap s.clock s.wait with
    | none => { s with queue := { queue with exited := true } }
    | some wait =>
        { s with
          queue := queue
          place := .poll
          wait := wait
          trigfd := trigfd
          polled := s.clock }
  else { s with place := .poll, polled := s.clock }

def flushTurn (q : Nat) (s : LoopState) : LoopState :=
  match q with
  | 0 => { s with place := .signals }
  | q + 1 =>
      if (s.queue.quelist (q + 1)).total > 0 then
        { s with queue := sendNext (q + 1) s.queue, place := .drain (q + 1) }
      else { s with place := .flush q }

/-- `scan_drop`, if `readdir` and `qsort` can give these lists. -/
def loopScan (entries : List Dirent) (sorted : List Msg) (place : Place) (s : LoopState) :
    Option LoopState :=
  if Readdir s.queue.disk.fs entries ∧
      QueueSort ((scanLoop entries s.queue).quelist IN).msg sorted then
    some { s with queue := scanDrop entries sorted s.queue, place := place }
  else none

def loopResponse (i : Ino) (code : Int) (s : LoopState) : LoopState :=
  { s with queue := checkResponse i code (getmonotime s.clock) (s.queue.answer i code) }

def loopStep (s : LoopState) (e : LoopEvent) : Option LoopState :=
  if s.queue.exited then none
  else
    match e, s.place with
    | .arrive i, _ =>
        if ∀ l ∈ s.queue.disk.fs, l.file ≠ i then some { s with queue := dropFile i s.queue }
        else none
    | .pass usec, _ => some { s with clock := s.clock + usec }
    | .scan entries sorted, .init => loopScan entries sorted .top s
    | .block, .top => some (beforePoll s)
    | .timeout, .poll =>
        if 0 ≤ s.wait ∧ s.polled + s.wait * 1000 ≤ s.clock then
          some { s with queue := timerExpired s.queue, place := .top, wait := -1 }
        else none
    | .ready, .poll => some { s with place := .trigger }
    | .scan entries sorted, .trigger =>
        if s.trigfd then loopScan entries sorted .pipe s else none
    | .next, .trigger => some { s with place := .pipe }
    | .response i code, .pipe => if s.pipefd then some (loopResponse i code s) else none
    | .next, .pipe => some { s with place := .signals }
    | .sighup, .signals =>
        some { s with
          wait := -1
          isconnect := false
          trigfd := false
          pipefd := false }
    | .sigusr1 entries sorted, .signals =>
        loopScan entries sorted (.flush s.queue.countq)
          { s with isconnect := true, trigfd := true, pipefd := true }
    | .turn, .flush q => some (flushTurn q s)
    | .response i code, .drain _ => some (loopResponse i code s)
    | .next, .drain q => some { s with place := .flush q }
    | .next, .signals => some { s with place := .top }
    | _, _ => none

/-- The operation on the queues that an event of the loop stands for. -/
def LoopEvent.operation (s : LoopState) : LoopEvent → Option QueueEvent
  | .arrive i => some (.arrive i)
  | .block => if s.isconnect then some .sendIn else none
  | .timeout => some .expire
  | .scan entries sorted => some (.scan entries sorted)
  | .response i code => some (.response i code (getmonotime s.clock))
  | .sighup => some (.signal false)
  | .sigusr1 entries sorted => some (.scan entries sorted)
  | .turn =>
      match s.place with
      | .flush (q + 1) =>
          if (s.queue.quelist (q + 1)).total > 0 then some (.flushSend (q + 1)) else none
      | _ => none
  | _ => none

/-- A condition on the operations, as a condition on the events of the loop. -/
def Lifted (C : QueueState → QueueEvent → Prop) (s : LoopState) (e : LoopEvent) : Prop :=
  ∀ f, e.operation s = some f → C s.queue f

instance {C : QueueState → QueueEvent → Prop} [∀ m f, Decidable (C m f)] (s : LoopState)
    (e : LoopEvent) : Decidable (Lifted C s e) :=
  match found : e.operation s with
  | none => isTrue fun f same => by
      rw [found] at same
      cases same
  | some f => decidable_of_iff (C s.queue f) (by simp [Lifted, found])

/-- The value of `indque` while `flush_queue` runs. -/
def Place.indque : Place → Option Nat
  | .flush q => some q
  | .drain q => some q
  | _ => none

/-- Which operations come with which values of `indque`, before and after. -/
inductive Serves (countq : Nat) : Option Nat → QueueEvent → Option Nat → Prop
  | arrive {indque : Option Nat} (i : Ino) : Serves countq indque (.arrive i) indque
  | response {indque : Option Nat} (i : Ino) (code : Int) (now : Timeval) :
      Serves countq indque (.response i code now) indque
  | signal (up : Bool) : Serves countq none (.signal up) none
  | scan (entries : List Dirent) (sorted : List Msg) :
      Serves countq none (.scan entries sorted) none
  | reconnect (entries : List Dirent) (sorted : List Msg) :
      Serves countq none (.scan entries sorted) (some countq)
  | sendIn : Serves countq none .sendIn none
  | expire : Serves countq none .expire none
  | flush (q : Nat) : Serves countq (some q) (.flushSend q) (some q)

/-- What a step of the loop is for the queues. -/
inductive Progress (s : LoopState) (e : LoopEvent) (t : LoopState) : Prop
  | operates {f : QueueEvent} (operation : e.operation s = some f)
      (step : queueStep s.queue f = some t.queue)
      (order : Serves s.queue.countq s.place.indque f t.place.indque)
      (armed : 0 < t.wait → s.queue.timerheap.nodes ≠ [] ∧ f ≠ .expire)
  | rests (operation : e.operation s = none) (same : t.queue = s.queue)
      (place : t.place.indque = s.place.indque) (wait : t.wait = s.wait)
  | descends {q : Nat} (operation : e.operation s = none) (same : t.queue = s.queue)
      (before : s.place.indque = some (q + 1)) (after : t.place.indque = some q)
      (empty : (s.queue.quelist (q + 1)).total ≤ 0) (wait : t.wait = s.wait)
  | leaves (operation : e.operation s = none) (same : t.queue = s.queue)
      (before : s.place.indque = some 0) (after : t.place.indque = none)
      (wait : t.wait = s.wait)

/-- A timeout for `poll` comes from a timer, and `flush_queue` is at a queue. -/
structure Steady (s : LoopState) : Prop where
  armed : 0 < s.wait → s.queue.timerheap.nodes ≠ []
  within : ∀ q, s.place.indque = some q → q ≤ s.queue.countq

section Steps

variable {s t : LoopState} {e : LoopEvent}

theorem operation_origin {f : QueueEvent} (operation : e.operation s = some f) :
    (f = .expire → e = .timeout) ∧ ∀ i code now, f = .response i code now → e = .response i code := by
  have plain (other : ∀ i code now, f ≠ .response i code now) (early : f ≠ .expire) :
      (f = .expire → e = .timeout) ∧
        ∀ i code now, f = .response i code now → e = .response i code :=
    ⟨fun same => absurd same early, fun i code now same => absurd same (other i code now)⟩
  cases e with
  | arrive i =>
    obtain rfl := Option.some.inj operation
    exact plain (fun _ _ _ same => by cases same) (fun same => by cases same)
  | pass usec => cases operation
  | block =>
    simp only [LoopEvent.operation] at operation
    split at operation
    · obtain rfl := Option.some.inj operation
      exact plain (fun _ _ _ same => by cases same) (fun same => by cases same)
    · cases operation
  | timeout =>
    obtain rfl := Option.some.inj operation
    exact ⟨fun _ => rfl, fun _ _ _ same => by cases same⟩
  | ready => cases operation
  | scan entries sorted =>
    obtain rfl := Option.some.inj operation
    exact plain (fun _ _ _ same => by cases same) (fun same => by cases same)
  | response i code =>
    obtain rfl := Option.some.inj operation
    refine ⟨fun same => (by cases same), ?_⟩
    intro j code' now same
    injection same with first second
    rw [first, second]
  | sighup =>
    obtain rfl := Option.some.inj operation
    exact plain (fun _ _ _ same => by cases same) (fun same => by cases same)
  | sigusr1 entries sorted =>
    obtain rfl := Option.some.inj operation
    exact plain (fun _ _ _ same => by cases same) (fun same => by cases same)
  | turn =>
    simp only [LoopEvent.operation] at operation
    split at operation
    · split at operation
      · obtain rfl := Option.some.inj operation
        exact plain (fun _ _ _ same => by cases same) (fun same => by cases same)
      · cases operation
    · cases operation
  | next => cases operation

theorem pollWait_ne_none {heap : TimerHeap} {clock wait : Int}
    (armed : 0 < wait → heap.nodes ≠ []) : pollWait heap clock wait ≠ none := by
  have min (filled : heap.nodes ≠ []) : heapMin heap ≠ none := by
    intro missing
    exact filled (List.length_eq_zero_iff.mp (Nat.le_zero.mp (List.getElem?_eq_none_iff.mp missing)))
  unfold pollWait
  split
  · rename_i positive
    simpa using min (armed positive)
  · split
    · rename_i filled
      have nodes : heap.nodes ≠ [] := by
        intro none
        exact filled (by rw [TimerHeap.nodecount, none]; rfl)
      simpa using min nodes
    · exact Option.some_ne_none _

private theorem pollWait_armed {heap : TimerHeap} {clock wait w : Int}
    (found : pollWait heap clock wait = some w) (positive : 0 < w) : heap.nodes ≠ [] := by
  rintro none
  have missing : heapMin heap = Option.none := by
    rw [heapMin, none]
    rfl
  have count : heap.nodecount = 0 := by
    rw [TimerHeap.nodecount, none]
    rfl
  unfold pollWait at found
  rw [missing, count] at found
  split at found
  · cases found
  · simp at found
    omega

theorem loopStep_living (happens : loopStep s e = some t) : s.queue.exited = false := by
  unfold loopStep at happens
  split at happens
  · cases happens
  · rename_i living
    simpa using living

private theorem goes_progress {place place' : Place} (before : s.place = place)
    (operation : e.operation s = none) (same : place'.indque = place.indque) :
    Progress s e { s with place := place' } := by
  refine .rests operation rfl ?_ rfl
  rw [before]
  exact same

private theorem Steady.operates {f : QueueEvent} (h : Steady s) (wait : t.wait = s.wait)
    (other : f ≠ .expire) (operation : e.operation s = some f)
    (step : queueStep s.queue f = some t.queue)
    (order : Serves s.queue.countq s.place.indque f t.place.indque) : Progress s e t := by
  refine .operates operation step order ?_
  rw [wait]
  exact fun positive => ⟨h.armed positive, other⟩

private theorem untimed_progress {f : QueueEvent} (untimed : t.wait = -1)
    (operation : e.operation s = some f) (step : queueStep s.queue f = some t.queue)
    (order : Serves s.queue.countq s.place.indque f t.place.indque) : Progress s e t := by
  refine .operates operation step order ?_
  rw [untimed]
  intro positive
  cases positive

private theorem beforePoll_progress (h : Steady s) (living : s.queue.exited = false)
    (top : s.place = .top) : Progress s .block (beforePoll s) := by
  cases connected : s.isconnect with
  | false =>
    have result : beforePoll s = { s with place := .poll, polled := s.clock } := by
      rw [beforePoll, connected]
      rfl
    rw [result]
    refine .rests ?_ rfl ?_ rfl
    · simp [LoopEvent.operation, connected]
    · rw [top]
      rfl
  | true =>
    cases waits : pollWait s.queue.timerheap s.clock s.wait with
    | none => exact absurd waits (pollWait_ne_none h.armed)
    | some wait =>
      refine .operates (f := .sendIn) ?_ ?_ ?_ ?_
      · simp [LoopEvent.operation, connected]
      · simp [queueStep, living, beforePoll, connected, waits]
      · rw [top]
        simp only [beforePoll, connected, waits, if_true]
        exact .sendIn
      · simp only [beforePoll, connected, waits, if_true]
        intro positive
        exact ⟨pollWait_armed waits positive, fun impossible => by cases impossible⟩

private theorem flushTurn_progress {q : Nat} (h : Steady s) (living : s.queue.exited = false)
    (place : s.place = .flush q) : Progress s .turn (flushTurn q s) := by
  have before : s.place.indque = some q := by
    rw [place]
    rfl
  cases q with
  | zero =>
    refine .leaves ?_ rfl before rfl rfl
    simp [LoopEvent.operation, place]
  | succ q =>
    by_cases filled : (s.queue.quelist (q + 1)).total > 0
    · have result : flushTurn (q + 1) s =
          { s with queue := sendNext (q + 1) s.queue, place := .drain (q + 1) } := by
        rw [flushTurn, if_pos filled]
      rw [result]
      have range := h.within (q + 1) before
      refine h.operates (f := .flushSend (q + 1)) rfl nofun ?_ ?_ ?_
      · simp [LoopEvent.operation, place, filled]
      · simp [queueStep, living, range]
      · rw [place]
        exact .flush (q + 1)
    · have result : flushTurn (q + 1) s = { s with place := .flush q } := by
        rw [flushTurn, if_neg filled]
      rw [result]
      refine .descends ?_ rfl before rfl (Int.not_lt.mp filled) rfl
      simp [LoopEvent.operation, place, filled]

private theorem response_progress {i : Ino} {code : Int} (h : Steady s)
    (living : s.queue.exited = false) : Progress s (.response i code) (loopResponse i code s) := by
  refine h.operates (f := .response i code (getmonotime s.clock)) rfl nofun rfl ?_
    (.response i code _)
  simp [queueStep, living, loopResponse]

private theorem scan_progress {entries : List Dirent} {sorted : List Msg} {place : Place}
    (fds : LoopState) (h : Steady s) (living : s.queue.exited = false)
    (queue : fds.queue = s.queue) (wait : fds.wait = s.wait)
    (operation : e.operation s = some (.scan entries sorted))
    (order : Serves s.queue.countq s.place.indque (.scan entries sorted) place.indque)
    (happens : loopScan entries sorted place fds = some t) : Progress s e t := by
  unfold loopScan at happens
  rw [queue] at happens
  split at happens
  · rename_i listing
    obtain rfl := Option.some.inj happens
    refine h.operates (f := .scan entries sorted) wait nofun operation ?_ order
    simp only [queueStep, living, Bool.false_eq_true, if_false, if_pos listing]
  · cases happens

theorem loopStep_progress (h : Steady s) (happens : loopStep s e = some t) :
    Progress s e t := by
  have living := loopStep_living happens
  unfold loopStep at happens
  rw [living] at happens
  simp only [Bool.false_eq_true, if_false] at happens
  split at happens
  · rename_i i
    split at happens
    · rename_i fresh
      obtain rfl := Option.some.inj happens
      exact h.operates (f := .arrive i) rfl nofun rfl (queueStep_arrive living fresh) (.arrive i)
    · cases happens
  · obtain rfl := Option.some.inj happens
    exact .rests rfl rfl rfl rfl
  · rename_i entries sorted place
    refine scan_progress s h living rfl rfl rfl ?_ happens
    rw [place]
    exact .scan entries sorted
  · rename_i place
    obtain rfl := Option.some.inj happens
    exact beforePoll_progress h living place
  · rename_i place
    split at happens
    · obtain rfl := Option.some.inj happens
      refine untimed_progress (f := .expire) rfl rfl ?_ ?_
      · simp [queueStep, living]
      · rw [place]
        exact .expire
    · cases happens
  · rename_i place
    obtain rfl := Option.some.inj happens
    exact goes_progress place rfl rfl
  · rename_i entries sorted place
    split at happens
    · refine scan_progress s h living rfl rfl rfl ?_ happens
      rw [place]
      exact .scan entries sorted
    · cases happens
  · rename_i place
    obtain rfl := Option.some.inj happens
    exact goes_progress place rfl rfl
  · rename_i i code place
    split at happens
    · obtain rfl := Option.some.inj happens
      exact response_progress h living
    · cases happens
  · rename_i place
    obtain rfl := Option.some.inj happens
    exact goes_progress place rfl rfl
  · rename_i place
    obtain rfl := Option.some.inj happens
    refine untimed_progress (f := .signal false) rfl rfl ?_ ?_
    · simp [queueStep, living]
    · rw [place]
      exact .signal false
  · rename_i entries sorted place
    refine scan_progress { s with isconnect := true, trigfd := true, pipefd := true } h living
      rfl rfl rfl ?_ happens
    rw [place]
    exact .reconnect entries sorted
  · rename_i q place
    obtain rfl := Option.some.inj happens
    exact flushTurn_progress h living place
  · rename_i i code q place
    obtain rfl := Option.some.inj happens
    exact response_progress h living
  · rename_i q place
    obtain rfl := Option.some.inj happens
    exact goes_progress place rfl rfl
  · rename_i place
    obtain rfl := Option.some.inj happens
    exact goes_progress place rfl rfl
  · cases happens

private theorem outcome_timers {m m' : QueueState} {f : QueueEvent} (outcome : Outcome m f m')
    (other : f ≠ .expire) {n : HeapNode} (member : n ∈ m.timerheap.nodes) :
    n ∈ m'.timerheap.nodes := by
  cases outcome with
  | idle => exact member
  | arrived => exact member
  | scanned => exact member
  | sent => exact member
  | expired => exact absurd rfl other
  | fired => exact absurd rfl other
  | stray => exact member
  | confirmed => exact member
  | settled => exact member
  | requeued =>
    obtain ⟨key, perm⟩ := requeue_timers _ _ _
    exact perm.mem_iff.mpr (List.mem_cons_of_mem _ member)

private theorem serves_within {countq : Nat} {before after : Option Nat} {f : QueueEvent}
    (order : Serves countq before f after) (within : ∀ q, before = some q → q ≤ countq) :
    ∀ q, after = some q → q ≤ countq := by
  intro q found
  cases order with
  | arrive => exact within q found
  | response => exact within q found
  | signal => cases found
  | scan => cases found
  | reconnect => exact Nat.le_of_eq (Option.some.inj found).symm
  | sendIn => cases found
  | expire => cases found
  | flush => exact within q found

theorem Progress.steady (progress : Progress s e t) (h : Steady s)
    (count : t.queue.countq = s.queue.countq)
    (kept : ∀ f, e.operation s = some f → f ≠ .expire → s.queue.timerheap.nodes ≠ [] →
      t.queue.timerheap.nodes ≠ []) : Steady t := by
  cases progress with
  | @operates f operation step order armed =>
    refine ⟨?_, ?_⟩
    · intro positive
      obtain ⟨filled, other⟩ := armed positive
      exact kept f operation other filled
    · rw [count]
      exact serves_within order h.within
  | rests operation same place wait =>
    refine ⟨?_, ?_⟩
    · rw [same, wait]
      exact h.armed
    · rw [same, place]
      exact h.within
  | @descends q operation same before after empty wait =>
    refine ⟨?_, ?_⟩
    · rw [same, wait]
      exact h.armed
    · intro r found
      rw [after] at found
      obtain rfl := Option.some.inj found
      rw [same]
      exact Nat.le_of_succ_le (h.within (q + 1) before)
  | leaves operation same before after wait =>
    refine ⟨?_, ?_⟩
    · rw [same, wait]
      exact h.armed
    · intro r found
      rw [after] at found
      cases found

/-- What every state of the loop satisfies. -/
structure Running (s : LoopState) : Prop where
  conserved : Conserved s.queue
  steady : s.queue.exited = false → Steady s

theorem loopStep_running (h : Running s) (happens : loopStep s e = some t) : Running t := by
  have living := loopStep_living happens
  have steady := h.steady living
  have synced := h.conserved.synced living
  have progress := loopStep_progress steady happens
  have steadied := progress.steady steady
  have still (same : t.queue = s.queue) (operation : e.operation s = none) : Running t := by
    refine ⟨same ▸ h.conserved, fun _ => steadied (by rw [same]) ?_⟩
    intro f found
    rw [operation] at found
    cases found
  cases progress with
  | @operates f operation step order armed =>
    refine ⟨queueStep_conserved h.conserved step, fun alive => ?_⟩
    have outcome := queueStep_outcome h.conserved.recorded.now.spool synced step alive
    refine steadied (outcome_countq outcome) ?_
    intro f' operation' other filled none
    obtain rfl := Option.some.inj (operation.symm.trans operation')
    obtain ⟨n, member⟩ := List.exists_mem_of_ne_nil _ filled
    have kept := outcome_timers outcome other member
    rw [none] at kept
    cases kept
  | rests operation same => exact still same operation
  | descends operation same => exact still same operation
  | leaves operation same => exact still same operation

theorem loopStep_flight (h : Running s) (flight : s.queue.exited = false → Flight s.queue)
    (answers : Lifted Answers s e) (happens : loopStep s e = some t)
    (alive : t.queue.exited = false) : Flight t.queue := by
  have living := loopStep_living happens
  have synced := h.conserved.synced living
  have spool := h.conserved.recorded.now.spool
  cases loopStep_progress (h.steady living) happens with
  | @operates f operation step =>
    exact outcome_flight (flight living) synced (answers f operation)
      (queueStep_outcome spool synced step alive)
  | rests _ same => exact same ▸ flight living
  | descends _ same => exact same ▸ flight living
  | leaves _ same => exact same ▸ flight living

theorem start_running {queue : QueueState} {clock : Int} (h : Conserved queue) :
    Running (LoopState.start queue clock) := by
  refine ⟨h, fun _ => ⟨?_, ?_⟩⟩
  · intro positive
    have impossible : (0 : Int) < -1 := positive
    omega
  · intro q found
    cases found

/-- Every run of the loop is a run of operations on the queues; what the loop's events
satisfy, the operations do. -/
theorem run_operations {C : QueueState → QueueEvent → Prop} {es : List LoopEvent} (h : Running s)
    (meets : Guarded loopStep (Lifted C) s es) (reached : run loopStep s es = some t) :
    Reaches queueStep C s.queue t.queue := by
  induction es generalizing s with
  | nil =>
    obtain rfl := Option.some.inj reached
    exact ⟨[], trivial, rfl⟩
  | cons e es ih =>
    obtain ⟨m, first, rest⟩ := Option.bind_eq_some_iff.mp reached
    have later := ih (loopStep_running h first) (meets.2 m first) rest
    cases loopStep_progress (h.steady (loopStep_living first)) first with
    | operates operation step => exact (Reaches.one (meets.1 _ operation) step).trans later
    | rests _ same =>
      rw [← same]
      exact later
    | descends _ same =>
      rw [← same]
      exact later
    | leaves _ same =>
      rw [← same]
      exact later

end Steps

end IecUtils.Queue.MainLoop
