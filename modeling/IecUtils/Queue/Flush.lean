/- Module: IecUtils/Queue/Flush
   source: flush_queue and check_response of quemngr/quemngr.c
   digest: What one call of flush_queue does, turn by turn, and what it has done when it returns. -/

import IecUtils.Queue.MainLoop

set_option autoImplicit false
set_option relaxedAutoImplicit false

namespace IecUtils.Queue.Flush

open IecUtils.Foundation.LinkTable
open IecUtils.Foundation.Transition
open IecUtils.Queue.Files
open IecUtils.Queue.Heap
open IecUtils.Queue.Control
open IecUtils.Queue.Manager
open IecUtils.Queue.Effects
open IecUtils.Queue.Conservation
open IecUtils.Queue.InFlight
open IecUtils.Queue.MainLoop

/-- The value `check_response` returns. -/
def checkReturn (i : Ino) (retval : Int) (m : QueueState) : Int :=
  match elemFind (m.quelist ACT) i with
  | none => -1
  | some _ => if retval = 0 then 1 else 0

/-- A call of `flush_queue`: the lists it found, the loop as it is now, its variable `n` and
the responses it has read. -/
structure FlushCall where
  entry : QueueState
  loop : LoopState
  n : Nat
  answers : List (Ino × Int)

def FlushCall.start (s : LoopState) : FlushCall := ⟨s.queue, s, 0, []⟩

/-- The statement `if (check_response(...) > 0) ++n`. -/
def increment (m : QueueState) : LoopEvent → Nat
  | .response i code => if checkReturn i code m > 0 then 1 else 0
  | _ => 0

def response : LoopEvent → List (Ino × Int)
  | .response i code => [(i, code)]
  | _ => []

def callStep (c : FlushCall) (e : LoopEvent) : Option FlushCall :=
  (loopStep c.loop e).map fun t =>
    { entry := c.entry
      loop := t
      n := c.n + increment c.loop.queue e
      answers := c.answers ++ response e }

def FlushCall.ended (c : FlushCall) : Prop := c.loop.queue.exited = true ∨ c.loop.place = .signals

instance (c : FlushCall) : Decidable c.ended := inferInstanceAs (Decidable (_ ∨ _))

/-- The names the call has written to the sender, with the queues they were sent from. -/
def FlushCall.written (c : FlushCall) : List Copy :=
  (c.loop.queue.copies.drop c.entry.copies.length).filter fun w => w.error = none

/-- Everything that was sent, from the messages in flight at the start on. -/
def FlushCall.sendings (c : FlushCall) : List (Nat × Ino) :=
  (c.entry.quelist ACT).msg.map (fun e => (e.state, e.inode)) ++
    c.written.map fun w => (w.queue, w.ino)

def FlushCall.lastSent (c : FlushCall) (i : Ino) : Option Nat :=
  (c.sendings.reverse.find? fun s => s.2 = i).map Prod.fst

def FlushCall.failed (c : FlushCall) (i : Ino) : Prop :=
  ∃ code, (i, code) ∈ c.answers ∧ code ≠ 0 ∧ code ≠ 1

/-- The call has returned and has done its work. -/
structure Flushed (c : FlushCall) : Prop where
  returned : c.loop.queue.exited = false ∧ c.loop.place = .signals
  once : (c.written.map Copy.ino).Nodup
  incoming : (c.loop.queue.quelist IN).msg = []
  deferred : ∀ q, 2 ≤ q → q ≤ c.loop.queue.countq → ∀ i ∈ (c.loop.queue.quelist q).inodes,
    c.failed i ∧ c.lastSent i = some (q - 1)
  count : c.n = c.answers.countP fun a => a.2 = 0

/-- Each message of a queue has a number that `%ld` can show, and only one in flight has
a link in `act`. -/
def Sendable (m : QueueState) : Prop :=
  ∀ q i, 1 ≤ q → q ≤ m.countq → i ∈ (m.quelist q).inodes →
    i.toNat < 2 ^ 63 ∧ (i ∉ (m.quelist ACT).inodes → ¬ Has m.disk.fs .act i)

section Moves

variable {s t : LoopState} {e : LoopEvent} {p : Nat}

/-- What can happen while `flush_queue` runs. -/
inductive CallMoves (s : LoopState) : LoopEvent → LoopState → Prop
  | arrives (i : Ino) (fresh : ∀ l ∈ s.queue.disk.fs, l.file ≠ i) :
      CallMoves s (.arrive i) { s with queue := dropFile i s.queue }
  | passes (usec : Nat) : CallMoves s (.pass usec) { s with clock := s.clock + usec }
  | sends {q : Nat} (place : s.place = .flush (q + 1))
      (filled : 0 < (s.queue.quelist (q + 1)).total) :
      CallMoves s .turn { s with queue := sendNext (q + 1) s.queue, place := .drain (q + 1) }
  | descends {q : Nat} (place : s.place = .flush (q + 1))
      (empty : (s.queue.quelist (q + 1)).total ≤ 0) :
      CallMoves s .turn { s with place := .flush q }
  | returns (place : s.place = .flush 0) : CallMoves s .turn { s with place := .signals }
  | answers {q : Nat} (i : Ino) (code : Int) (place : s.place = .drain q) :
      CallMoves s (.response i code) (loopResponse i code s)
  | ends {q : Nat} (place : s.place = .drain q) : CallMoves s .next { s with place := .flush q }

theorem call_moves (inside : s.place.indque = some p) (happens : loopStep s e = some t) :
    CallMoves s e t := by
  have living := loopStep_living happens
  obtain ⟨queue, place, isconnect, wait, trigfd, pipefd, clock, polled⟩ := s
  have living' : queue.exited = false := living
  simp only [loopStep, living', Bool.false_eq_true, if_false] at happens
  cases place with
  | flush q =>
    cases e with
    | arrive i =>
      simp only at happens
      split at happens
      · rename_i fresh
        obtain rfl := Option.some.inj happens
        exact .arrives i fresh
      · cases happens
    | pass usec =>
      obtain rfl := Option.some.inj happens
      exact .passes usec
    | turn =>
      obtain rfl := Option.some.inj happens
      cases q with
      | zero => exact .returns rfl
      | succ q =>
        unfold flushTurn
        simp only
        split
        · rename_i filled
          exact .sends rfl filled
        · rename_i empty
          exact .descends rfl (Int.not_lt.mp empty)
    | _ => cases happens
  | drain q =>
    cases e with
    | arrive i =>
      simp only at happens
      split at happens
      · rename_i fresh
        obtain rfl := Option.some.inj happens
        exact .arrives i fresh
      · cases happens
    | pass usec =>
      obtain rfl := Option.some.inj happens
      exact .passes usec
    | response i code =>
      obtain rfl := Option.some.inj happens
      exact .answers i code rfl
    | next =>
      obtain rfl := Option.some.inj happens
      exact .ends rfl
    | _ => cases happens
  | _ => cases inside

theorem flush_place {q : Nat} (inside : s.place.indque = some p) (place : s.place = .flush q) :
    p = q := by
  rw [place] at inside
  exact (Option.some.inj inside).symm

end Moves

section Survival

variable {m m' : QueueState} {q : Nat} {i : Ino} {e : QueueEvent}

theorem sendFile_small (spool : Spool m.disk.fs)
    (alive : (sendFile q i m).exited = false) : i.toNat < 2 ^ 63 := by
  obtain ⟨fs, done, _⟩ := perform_alive alive
  obtain ⟨_, source, _⟩ := link_ok done
  exact spool.path_small source

private theorem final_small {a : Action} {commit : QueueState → QueueState}
    (spool : Spool m.disk.fs)
    (alive : (perform [{ call := .unlink (.act, ld i) }, a] commit m).exited = false) :
    i.toNat < 2 ^ 63 := by
  obtain ⟨fs, done, _⟩ := perform_alive alive
  obtain ⟨⟨_, source⟩, _⟩ := unlink_ok done
  exact spool.path_small source

theorem answer_small {code : Int} {now : Timeval} (spool : Spool m.disk.fs)
    (flying : i ∈ (m.quelist ACT).inodes) (final : code ≠ 1)
    (alive : (checkResponse i code now m).exited = false) : i.toNat < 2 ^ 63 := by
  unfold checkResponse at alive
  cases found : elemFind (m.quelist ACT) i with
  | none => exact absurd flying (elemFind_none found)
  | some n =>
    obtain ⟨elem, entry, _, _⟩ := elemFind_some found
    rw [found] at alive
    simp only [entry, if_neg final] at alive
    split at alive
    · exact final_small spool alive
    · split at alive
      · exact final_small spool alive
      · exact final_small spool alive

private theorem final_survives {a : Action} {commit : QueueState → QueueState}
    (spool : Spool m.disk.fs) (living : m.exited = false) (small : i.toNat < 2 ^ 63)
    (active : Has m.disk.fs .act i)
    (second : ∀ fs, Spool fs → (∀ d j, Has fs d j ↔ Has m.disk.fs d j ∧ ¬ (d = .act ∧ j = i)) →
      ∃ fs', a.call.exec fs = .ok fs')
    (lists : ∀ x, (commit x).exited = x.exited) :
    (perform [{ call := .unlink (.act, ld i) }, a] commit m).exited = false := by
  obtain ⟨fs, released⟩ := spool.unlink_ready small active
  obtain ⟨_, spool', links⟩ := spool.unlinked released
  obtain ⟨fs', done⟩ := second fs spool' links
  rw [perform, released]
  simp only
  rw [perform]
  have done' : a.call.exec
      (m.onDisk (m.disk.after { call := .unlink (.act, ld i) } fs)
        (m.trail ++ [m.disk.after { call := .unlink (.act, ld i) } fs])).disk.fs = .ok fs' := done
  rw [done']
  simp only
  rw [perform, lists]
  exact living

theorem answer_survives {code : Int} {now : Timeval} (conserved : Conserved m)
    (living : m.exited = false) (flight : Flight m) (sendable : Sendable m) :
    (checkResponse i code now (m.answer i code)).exited = false := by
  have synced := conserved.synced living
  have spool := conserved.recorded.now.spool
  unfold checkResponse
  split
  · exact living
  · rename_i indelem found
    obtain ⟨elem, entry, member, rfl⟩ := elemFind_some found
    obtain ⟨low, high⟩ := synced.active elem member
    have listed := flight.listed elem member
    have here := ((synced.agrees low high).listed elem.inode).mp listed
    have active := flight.linked elem.inode (List.mem_map_of_mem member)
    have small := (sendable elem.state elem.inode low high listed).1
    have still {fs : Fs} (links : ∀ d j, Has fs d j ↔
        Has m.disk.fs d j ∧ ¬ (d = .act ∧ j = elem.inode)) :
        Has fs (.que elem.state) elem.inode := by
      refine (links _ _).mpr ⟨here, ?_⟩
      rintro ⟨impossible, _⟩
      cases impossible
    simp only [entry, dirOf_queue low, dirOf_queue (Nat.le_add_left 1 elem.state)]
    split
    · refine final_survives (m := m.answer elem.inode code) spool living small active ?_
        fun _ => rfl
      intro fs spool' links
      exact spool'.unlink_ready small (still links)
    · split
      · exact living
      · split
        · refine final_survives (m := m.answer elem.inode code) spool living small active ?_
            fun _ => rfl
          intro fs spool' links
          exact spool'.rename_ready small (still links) _
        · refine final_survives (m := m.answer elem.inode code) spool living small active ?_
            fun _ => rfl
          intro fs spool' links
          exact spool'.rename_ready small (still links) _

end Survival

/-- What the lists, the spool and the sender satisfy during a call that can go through. -/
structure Ready (m : QueueState) : Prop where
  conserved : Conserved m
  alive : m.exited = false
  flight : Flight m
  sendable : Sendable m

def InCall : QueueEvent → Prop
  | .arrive _ => True
  | .flushSend _ => True
  | .response _ _ _ => True
  | _ => False

section Steps

variable {m m' : QueueState} {q : Nat} {i : Ino} {e : QueueEvent}

theorem Ready.synced (h : Ready m) : Synced m := h.conserved.synced h.alive

theorem Ready.spool (h : Ready m) : Spool m.disk.fs := h.conserved.recorded.now.spool

theorem Ready.queue_eq {r : Nat} (h : Ready m) (queue : 1 ≤ q ∧ q ≤ m.countq)
    (other : 1 ≤ r ∧ r ≤ m.countq) (here : i ∈ (m.quelist q).inodes)
    (there : i ∈ (m.quelist r).inodes) : q = r :=
  h.spool.queue_unique (((h.synced.agrees queue.1 queue.2).listed i).mp here)
    (((h.synced.agrees other.1 other.2).listed i).mp there)

theorem Ready.flies_on {elem : Msg} (h : Ready m) (member : elem ∈ (m.quelist ACT).msg)
    (queue : 1 ≤ q ∧ q ≤ m.countq) (listed : i ∈ (m.quelist q).inodes)
    (left : q = elem.state → i ∈ (elemDel (m.quelist elem.state) elem.inode).inodes)
    (flying : i ∈ (m.quelist ACT).inodes) : i ∈ (elemDel (m.quelist ACT) elem.inode).inodes := by
  have range := h.synced.active elem member
  refine mem_elemDel flying ?_
  rintro rfl
  have still := left (h.queue_eq queue range listed (h.flight.listed elem member))
  rw [elemDel_inodes] at still
  exact ((h.synced.agrees range.1 range.2).nodup.mem_erase_iff.mp still).1 rfl

theorem Ready.sendNext_alive (h : Ready m) (queue : 1 ≤ q ∧ q ≤ m.countq) :
    (sendNext q m).exited = false := by
  rcases sendNext_cases q m with same | ⟨i, may, file, result⟩
  · rw [same]
    exact h.alive
  · obtain ⟨elem, entry, inode⟩ := Option.map_eq_some_iff.mp file
    have listed : i ∈ (m.quelist q).inodes :=
      inode ▸ List.mem_map_of_mem (List.mem_of_getElem? entry)
    have idle := next_idle h.spool h.synced h.flight queue may file
    obtain ⟨small, unlinked⟩ := h.sendable q i queue.1 queue.2 listed
    have here := ((h.synced.agrees queue.1 queue.2).listed i).mp listed
    rw [result]
    exact sendFile_survives h.spool h.alive queue.1 small here (unlinked idle)

private theorem Ready.step_alive (h : Ready m) (inCall : InCall e)
    (happens : queueStep m e = some m') : m'.exited = false := by
  obtain ⟨_, performs⟩ := queueStep_performs happens
  cases performs with
  | arrive i fresh => exact h.alive
  | flushSend q queue => exact h.sendNext_alive queue
  | response i code now => exact answer_survives h.conserved h.alive h.flight h.sendable
  | _ => exact inCall.elim

private theorem outcome_sendable (h : Ready m) (synced' : Synced m') (inCall : InCall e)
    (outcome : Outcome m e m') : Sendable m' := by
  have synced := h.synced
  have spool := h.spool
  have before {r : Nat} {j : Ino} (low : 1 ≤ r) (high : r ≤ m.countq)
      (there : Has m.disk.fs (.que r) j) : j.toNat < 2 ^ 63 ∧
        (j ∉ (m.quelist ACT).inodes → ¬ Has m.disk.fs .act j) :=
    h.sendable r j low high (((synced.agrees low high).listed j).mpr there)
  intro r j low high listed
  have there := ((synced'.agrees low high).listed j).mp listed
  rw [outcome_countq outcome] at high
  have erased {l : Msglist} {k : Ino} (apart : j ≠ k) (idle : j ∉ (elemDel l k).inodes) :
      j ∉ l.inodes := fun member => idle (mem_elemDel member apart)
  cases outcome with
  | idle => exact before low high there
  | arrived links =>
    rcases (links _ _).mp there with old | ⟨impossible, _⟩
    · obtain ⟨small, idle⟩ := before low high old
      refine ⟨small, fun quiet active => ?_⟩
      rcases (links _ _).mp active with old | ⟨impossible, _⟩
      · exact idle quiet old
      · cases impossible
    · cases impossible
  | @sent _ q i _ _ queue _ _ links _ =>
    rcases (links.links _ _).mp there with old | ⟨impossible, _⟩
    · obtain ⟨small, idle⟩ := before low high old
      refine ⟨small, fun quiet active => ?_⟩
      rw [dispatch_act _ _ (queue_ne_act queue.1), elemAdd_inodes] at quiet
      rcases (links.links _ _).mp active with old | ⟨_, rfl⟩
      · exact idle (fun member => quiet (List.mem_append_left _ member)) old
      · exact quiet (List.mem_append_right _ (List.mem_singleton_self _))
    · cases impossible
  | stray => exact before low high there
  | @confirmed elem _ member =>
    have active := (synced.active elem member).1
    rw [put_other _ _ (Ne.symm (queue_ne_act active))]
    exact before low high there
  | @settled elem _ _ _ _ dst member _ links away =>
    have active := (synced.active elem member).1
    have outside {d : Dir} {k : Ino} (other : d ≠ .fail) (there : k = elem.inode ∧ dst = some d) :
        False := by
      rcases away with same | same
      · rw [same] at there
        cases there.2
      · rw [same] at there
        exact other (Option.some.inj there.2).symm
    rcases (links.links _ _).mp there with ⟨old, kept⟩ | elsewhere
    · obtain ⟨small, idle⟩ := before low high old
      refine ⟨small, fun quiet active' => ?_⟩
      rw [settle_act _ _ (queue_ne_act active)] at quiet
      rcases (links.links _ _).mp active' with ⟨linked, other⟩ | elsewhere
      · exact idle (erased (fun same => other ⟨same, .inl rfl⟩) quiet) linked
      · exact outside (fun impossible => by cases impossible) elsewhere
    · exact (outside (fun impossible => by cases impossible) elsewhere).elim
  | @requeued elem _ _ p _ member _ _ _ links =>
    obtain ⟨active, range⟩ := synced.active elem member
    have unlinked (quiet : j ∉ (elemDel (m.quelist ACT) elem.inode).inodes)
        (idle : j ∉ (m.quelist ACT).inodes → ¬ Has m.disk.fs .act j) :
        ¬ Has p.fs .act j := by
      intro active'
      rcases (links.links _ _).mp active' with ⟨linked, other⟩ | ⟨_, impossible⟩
      · exact idle (erased (fun same => other ⟨same, .inl rfl⟩) quiet) linked
      · cases impossible
    rw [requeue_act _ _ _ (queue_ne_act active)]
    rcases (links.links _ _).mp there with ⟨old, _⟩ | ⟨rfl, _⟩
    · obtain ⟨small, idle⟩ := before low high old
      exact ⟨small, fun quiet => unlinked quiet idle⟩
    · obtain ⟨small, idle⟩ := before active range links.here
      exact ⟨small, fun quiet => unlinked quiet idle⟩
  | _ => exact inCall.elim

theorem ready_step (h : Ready m) (answers : Answers m e) (inCall : InCall e)
    (happens : queueStep m e = some m') : Ready m' := by
  have alive := h.step_alive inCall happens
  have conserved := queueStep_conserved h.conserved happens
  have outcome := queueStep_outcome h.spool h.synced happens alive
  exact ⟨conserved, alive, outcome_flight h.flight h.synced answers outcome,
    outcome_sendable h (conserved.synced alive) inCall outcome⟩

end Steps

/-- The call is at queue `p`: nothing above it is in flight, all that is there has failed in
this call one queue below, and nothing that may still be sent was written before. -/
structure Swept (c : FlushCall) (p : Nat) : Prop where
  ready : Ready c.loop.queue
  range : p ≤ c.loop.queue.countq
  logged : c.entry.copies.length ≤ c.loop.queue.copies.length
  low : ∀ e ∈ (c.loop.queue.quelist ACT).msg, e.state ≤ p
  last : ∀ e ∈ (c.loop.queue.quelist ACT).msg, c.lastSent e.inode = some e.state
  above : ∀ q i, p < q → q ≤ c.loop.queue.countq → i ∈ (c.loop.queue.quelist q).inodes →
    2 ≤ q ∧ c.failed i ∧ c.lastSent i = some (q - 1)
  fresh : ∀ q i, 1 ≤ q → q ≤ p → i ∈ (c.loop.queue.quelist q).inodes →
    (q = p → i ∉ (c.loop.queue.quelist ACT).inodes) → i ∉ c.written.map Copy.ino
  once : (c.written.map Copy.ino).Nodup
  count : c.n = c.answers.countP fun a => a.2 = 0

section History

variable {c c' : FlushCall} {p : Nat} {i : Ino}

private theorem written_congr (entry : c'.entry = c.entry)
    (copies : c'.loop.queue.copies = c.loop.queue.copies) : c'.written = c.written := by
  rw [FlushCall.written, entry, copies, FlushCall.written]

private theorem lastSent_congr (entry : c'.entry = c.entry)
    (copies : c'.loop.queue.copies = c.loop.queue.copies) (i : Ino) :
    c'.lastSent i = c.lastSent i := by
  rw [FlushCall.lastSent, FlushCall.sendings, entry, written_congr entry copies,
    FlushCall.lastSent, FlushCall.sendings]

private theorem written_snoc {w : Copy}
    (logged : c.entry.copies.length ≤ c.loop.queue.copies.length)
    (entry : c'.entry = c.entry) (copies : c'.loop.queue.copies = c.loop.queue.copies ++ [w])
    (done : w.error = none) : c'.written = c.written ++ [w] := by
  rw [FlushCall.written, entry, copies, List.drop_append_of_le_length logged, List.filter_append,
    FlushCall.written]
  simp [done]

private theorem lastSent_snoc {w : Copy} (entry : c'.entry = c.entry)
    (written : c'.written = c.written ++ [w]) (j : Ino) :
    c'.lastSent j = if w.ino = j then some w.queue else c.lastSent j := by
  have sendings : c'.sendings.reverse = (w.queue, w.ino) :: c.sendings.reverse := by
    rw [FlushCall.sendings, written, entry, List.map_append, ← List.append_assoc,
      List.reverse_append]
    rfl
  rw [FlushCall.lastSent, sendings, List.find?_cons]
  by_cases same : w.ino = j
  · simp [same]
  · simp [same, FlushCall.lastSent]

/-- A step that writes nothing. Each message of a queue was there before and is as much in
flight, or comes from the queue below, where it has just failed. -/
private theorem Swept.keep (h : Swept c p) (ready : Ready c'.loop.queue)
    (entry : c'.entry = c.entry) (copies : c'.loop.queue.copies = c.loop.queue.copies)
    (countq : c'.loop.queue.countq = c.loop.queue.countq) (answers : c.answers ⊆ c'.answers)
    (count : c'.n = c'.answers.countP fun a => a.2 = 0)
    (act : (c'.loop.queue.quelist ACT).msg ⊆ (c.loop.queue.quelist ACT).msg)
    (queues : ∀ q i, 1 ≤ q → q ≤ c.loop.queue.countq → i ∈ (c'.loop.queue.quelist q).inodes →
      i ∈ (c.loop.queue.quelist q).inodes ∧
          (i ∈ (c.loop.queue.quelist ACT).inodes → i ∈ (c'.loop.queue.quelist ACT).inodes) ∨
        ∃ e ∈ (c.loop.queue.quelist ACT).msg, e.inode = i ∧ q = e.state + 1 ∧ c'.failed i) :
    Swept c' p := by
  have written := written_congr entry copies
  have last := lastSent_congr entry copies
  refine ⟨ready, ?_, ?_, ?_, ?_, ?_, ?_, ?_, count⟩
  · rw [countq]
    exact h.range
  · rw [entry, copies]
    exact h.logged
  · intro e member
    exact h.low e (act member)
  · intro e member
    rw [last]
    exact h.last e (act member)
  · intro q i beyond high listed
    rw [countq] at high
    rw [last]
    rcases queues q i (by omega) high listed with ⟨old, _⟩ | ⟨e, member, rfl, rfl, failed⟩
    · obtain ⟨deferred, ⟨code, answered, final⟩, sent⟩ := h.above q i beyond high old
      exact ⟨deferred, ⟨code, answers answered, final⟩, sent⟩
    · have queue := (h.ready.synced.active e member).1
      exact ⟨by omega, failed, h.last e member⟩
  · intro q i low high listed idle
    rw [written]
    rcases queues q i low (Nat.le_trans high h.range) listed with
      ⟨old, flies⟩ | ⟨e, member, rfl, rfl, _⟩
    · exact h.fresh q i low high old fun here flying => idle here (flies flying)
    · -- It was in flight from a queue that the call has not come to.
      have queue := (h.ready.synced.active e member).1
      refine h.fresh e.state e.inode queue (by omega) (h.ready.flight.listed e member) ?_
      intro here
      omega
  · rw [written]
    exact h.once

private theorem Swept.sent {point : Point} {trail : List Point} (h : Swept c p) (low : 1 ≤ p)
    (listed : i ∈ (c.loop.queue.quelist p).inodes)
    (links : Copied c.loop.queue.disk.fs point.fs p i) (entry : c'.entry = c.entry)
    (answers : c'.answers = c.answers) (count : c'.n = c.n) (ready : Ready c'.loop.queue)
    (queue : c'.loop.queue =
      dispatch p i ((c.loop.queue.logCopy p i none).onDisk point trail)) : Swept c' p := by
  have idle : i ∉ (c.loop.queue.quelist ACT).inodes :=
    fun flying => links.idle (h.ready.flight.linked i flying)
  have act : c'.loop.queue.quelist ACT =
      elemAdd (c.loop.queue.quelist ACT) (elemNew i ⟨0, 0⟩ p) := by
    rw [queue]
    exact dispatch_act _ _ (queue_ne_act low)
  have lists {q : Nat} (other : 1 ≤ q) :
      (c'.loop.queue.quelist q).inodes = (c.loop.queue.quelist q).inodes := by
    rw [queue]
    exact dispatch_inodes _ _ (queue_ne_act other)
  have copies : c'.loop.queue.copies = c.loop.queue.copies ++
      [⟨p, i, decide (i ∈ (c.loop.queue.quelist ACT).inodes), none⟩] := by
    rw [queue]
    rfl
  have countq : c'.loop.queue.countq = c.loop.queue.countq := by
    rw [queue]
    rfl
  have written := written_snoc h.logged entry copies rfl
  have last := lastSent_snoc entry written
  have flying (j : Ino) : j ∈ (c'.loop.queue.quelist ACT).inodes ↔
      j ∈ (c.loop.queue.quelist ACT).inodes ∨ j = i := by
    rw [act, elemAdd_inodes, List.mem_append, List.mem_singleton]
    rfl
  have own {q : Nat} (low' : 1 ≤ q) (high : q ≤ c.loop.queue.countq)
      (here : i ∈ (c.loop.queue.quelist q).inodes) : q = p :=
    h.ready.queue_eq ⟨low', high⟩ ⟨low, h.range⟩ here listed
  refine ⟨ready, ?_, ?_, ?_, ?_, ?_, ?_, ?_, ?_⟩
  · rw [countq]
    exact h.range
  · rw [entry, copies, List.length_append]
    exact Nat.le_trans h.logged (Nat.le_add_right _ _)
  · intro e member
    rw [act] at member
    rcases List.mem_append.mp member with old | new
    · exact h.low e old
    · rw [List.mem_singleton.mp new]
      exact Nat.le_refl p
  · intro e member
    rw [act] at member
    rw [last]
    rcases List.mem_append.mp member with old | new
    · have apart : i ≠ e.inode := fun same => idle (same ▸ List.mem_map_of_mem old)
      rw [if_neg apart]
      exact h.last e old
    · rw [List.mem_singleton.mp new]
      exact if_pos rfl
  · intro q j beyond high member
    rw [countq] at high
    rw [lists (by omega)] at member
    have apart : i ≠ j := by
      rintro rfl
      have same := own (by omega) high member
      omega
    rw [last, if_neg apart, FlushCall.failed, answers]
    exact h.above q j beyond high member
  · intro q j low' high member outside
    rw [lists low'] at member
    have apart : j ≠ i := by
      rintro rfl
      exact outside (own low' (Nat.le_trans high h.range) member) ((flying j).mpr (.inr rfl))
    rw [written, List.map_append, List.mem_append]
    rintro (old | new)
    · exact h.fresh q j low' high member
        (fun here busy => outside here ((flying j).mpr (.inl busy))) old
    · exact apart (List.mem_singleton.mp new)
  · rw [written, List.map_append]
    refine List.nodup_append.mpr ⟨h.once, List.nodup_singleton _, ?_⟩
    rintro a old b new rfl
    rw [List.mem_singleton.mp new] at old
    exact h.fresh p i low (Nat.le_refl p) listed (fun _ => idle) old
  · rw [count, answers]
    exact h.count

private theorem increment_answer {m : QueueState} {code : Int}
    (flying : i ∈ (m.quelist ACT).inodes) :
    increment m (.response i code) = if code = 0 then 1 else 0 := by
  unfold increment checkReturn
  cases found : elemFind (m.quelist ACT) i with
  | none => exact absurd flying (elemFind_none found)
  | some n =>
    by_cases delivered : code = 0
    · simp [delivered, found]
    · simp [delivered, found]

private theorem Swept.final {elem : Msg} (h : Swept c p)
    (member : elem ∈ (c.loop.queue.quelist ACT).msg) (ready : Ready c'.loop.queue)
    (entry : c'.entry = c.entry) (copies : c'.loop.queue.copies = c.loop.queue.copies)
    (countq : c'.loop.queue.countq = c.loop.queue.countq) (answers : c.answers ⊆ c'.answers)
    (count : c'.n = c'.answers.countP fun a => a.2 = 0)
    (act : c'.loop.queue.quelist ACT = elemDel (c.loop.queue.quelist ACT) elem.inode)
    (queues : ∀ q j, 1 ≤ q → j ∈ (c'.loop.queue.quelist q).inodes →
      q = elem.state ∧ j ∈ (elemDel (c.loop.queue.quelist elem.state) elem.inode).inodes ∨
        q ≠ elem.state ∧ j ∈ (c.loop.queue.quelist q).inodes ∨
        q = elem.state + 1 ∧ j = elem.inode ∧ c'.failed j) : Swept c' p := by
  refine h.keep ready entry copies countq answers count ?_ ?_
  · rw [act]
    exact elemDel_subset _ _
  · intro q j low high listed
    rw [act]
    rcases queues q j low listed with ⟨rfl, left⟩ | ⟨apart, old⟩ | ⟨rfl, rfl, failed⟩
    · have old : j ∈ (c.loop.queue.quelist elem.state).inodes := by
        rw [elemDel_inodes] at left
        exact List.mem_of_mem_erase left
      exact .inl ⟨old, h.ready.flies_on member ⟨low, high⟩ old fun _ => left⟩
    · exact .inl ⟨old, h.ready.flies_on member ⟨low, high⟩ old fun same => absurd same apart⟩
    · exact .inr ⟨elem, member, rfl, rfl, failed⟩

private theorem Swept.answered {m : QueueState} {code : Int} {now : Timeval} (h : Swept c p)
    (owed : (i, decide (code ≠ 1)) ∈ c.loop.queue.due) (entry : c'.entry = c.entry)
    (answers : c'.answers = c.answers ++ [(i, code)])
    (count : c'.n = c.n + increment c.loop.queue (.response i code))
    (ready : Ready c'.loop.queue) (queue : c'.loop.queue = m)
    (outcome : Outcome c.loop.queue (.response i code now) m) : Swept c' p := by
  have flying : i ∈ (c.loop.queue.quelist ACT).inodes :=
    h.ready.flight.due.subset (List.mem_map_of_mem (f := Prod.fst) owed)
  have grown : c.answers ⊆ c'.answers := by
    rw [answers]
    exact List.subset_append_left _ _
  have counted : c'.n = c'.answers.countP fun a => a.2 = 0 := by
    rw [count, increment_answer flying, answers, List.countP_append, List.countP_singleton, h.count]
    simp only [decide_eq_true_eq]
  have copies : m.copies = c.loop.queue.copies → c'.loop.queue.copies = c.loop.queue.copies :=
    fun same => queue ▸ same
  have countq : c'.loop.queue.countq = c.loop.queue.countq := by
    rw [queue]
    exact outcome_countq outcome
  cases outcome with
  | idle silent => exact absurd rfl (silent i code now)
  | stray missing => exact absurd flying missing
  | sent _ _ _ _ cause =>
    rcases cause with ⟨impossible, _⟩ | impossible
    · cases impossible
    · cases impossible
  | @confirmed elem _ member =>
    have low := (h.ready.synced.active elem member).1
    have act : c'.loop.queue.quelist ACT = c.loop.queue.quelist ACT := by
      rw [queue]
      exact put_other _ _ (Ne.symm (queue_ne_act low))
    refine h.keep ready entry (copies rfl) countq grown counted ?_ ?_
    · rw [act]
      exact List.Subset.refl _
    · intro q j _ _ listed
      left
      rw [act]
      refine ⟨?_, id⟩
      rw [queue] at listed
      by_cases same : q = elem.state
      · subst same
        rw [put_same] at listed
        exact listed
      · rw [put_other _ _ same] at listed
        exact listed
  | @settled elem _ _ point trail _ member _ _ _ =>
    have low := (h.ready.synced.active elem member).1
    refine h.final member ready entry (copies rfl) countq grown counted ?_ ?_
    · rw [queue]
      exact settle_act _ _ (queue_ne_act low)
    · intro q j low' listed
      rw [queue, settle_queue _ _ (queue_ne_act low')] at listed
      split at listed
      · rename_i same
        exact .inl ⟨same, listed⟩
      · rename_i apart
        exact .inr (.inl ⟨apart, listed⟩)
  | @requeued elem _ _ point trail member failed final _ _ =>
    have low := (h.ready.synced.active elem member).1
    refine h.final member ready entry (copies rfl) countq grown counted ?_ ?_
    · rw [queue]
      exact requeue_act _ _ _ (queue_ne_act low)
    · intro q j low' listed
      rw [queue, requeue_queue _ _ _ (queue_ne_act low')] at listed
      split at listed
      · rename_i same
        exact .inl ⟨same, listed⟩
      · rename_i apart
        split at listed
        · rename_i next
          rw [elemAdd_inodes] at listed
          rcases List.mem_append.mp listed with old | new
          · exact .inr (.inl ⟨apart, old⟩)
          · refine .inr (.inr ⟨next, List.mem_singleton.mp new, code, ?_, failed, final⟩)
            rw [answers, List.mem_singleton.mp new]
            exact List.mem_append_right _ (List.mem_singleton_self _)
        · exact .inr (.inl ⟨apart, listed⟩)

private theorem Swept.descends (h : Swept c (p + 1)) (ready : Ready c'.loop.queue)
    (entry : c'.entry = c.entry) (queue : c'.loop.queue = c.loop.queue)
    (answers : c'.answers = c.answers) (count : c'.n = c.n)
    (empty : (c.loop.queue.quelist (p + 1)).total ≤ 0) : Swept c' p := by
  have written := written_congr entry (congrArg QueueState.copies queue)
  have last := lastSent_congr entry (congrArg QueueState.copies queue)
  have none (i : Ino) : i ∉ (c.loop.queue.quelist (p + 1)).inodes := by
    rw [Msglist.inodes_of_empty empty]
    exact List.not_mem_nil
  refine ⟨ready, ?_, ?_, ?_, ?_, ?_, ?_, ?_, ?_⟩
  · rw [queue]
    exact Nat.le_of_succ_le h.range
  · rw [entry, queue]
    exact h.logged
  · intro e member
    rw [queue] at member
    have bound := h.low e member
    by_contra beyond
    have state : e.state = p + 1 := by omega
    exact none e.inode (state ▸ h.ready.flight.listed e member)
  · intro e member
    rw [queue] at member
    rw [last]
    exact h.last e member
  · intro q i beyond high listed
    rw [queue] at high listed
    rw [last, FlushCall.failed, answers]
    by_cases same : q = p + 1
    · rw [same] at listed
      exact absurd listed (none i)
    · exact h.above q i (by omega) high listed
  · intro q i low high listed _
    rw [queue] at listed
    rw [written]
    exact h.fresh q i low (by omega) listed fun same => by omega
  · rw [written]
    exact h.once
  · rw [count, answers]
    exact h.count

private theorem Swept.still (h : Swept c p) (ready : Ready c'.loop.queue)
    (entry : c'.entry = c.entry)
    (copies : c'.loop.queue.copies = c.loop.queue.copies)
    (countq : c'.loop.queue.countq = c.loop.queue.countq)
    (lists : c'.loop.queue.quelist = c.loop.queue.quelist) (answers : c'.answers = c.answers)
    (count : c'.n = c.n) : Swept c' p := by
  refine h.keep ready entry copies countq ?_ ?_ ?_ ?_
  · rw [answers]
    exact List.Subset.refl _
  · rw [count, answers]
    exact h.count
  · rw [lists]
    exact List.Subset.refl _
  · intro q j _ _ listed
    rw [lists] at listed
    exact .inl ⟨listed, fun busy => lists ▸ busy⟩

end History

def Underway (c : FlushCall) : Prop :=
  (∃ p, c.loop.place.indque = some p ∧ Swept c p) ∨ c.loop.place = .signals ∧ Swept c 0

section Calls

variable {c c' : FlushCall} {e : LoopEvent} {p : Nat}

theorem callStep_underway (h : Swept c p) (inside : c.loop.place.indque = some p)
    (answers : Lifted Answers c.loop e) (happens : callStep c e = some c') : Underway c' := by
  obtain ⟨t, step, rfl⟩ := Option.map_eq_some_iff.mp happens
  have nothing : c.answers ++ [] = c.answers := List.append_nil _
  have alive := h.ready.alive
  cases call_moves inside step with
  | arrives i fresh =>
    have ready : Ready (dropFile i c.loop.queue) :=
      ready_step (e := .arrive i) h.ready trivial trivial (queueStep_arrive alive fresh)
    exact .inl ⟨p, inside, h.still ready rfl rfl rfl rfl nothing rfl⟩
  | passes usec => exact .inl ⟨p, inside, h.still h.ready rfl rfl rfl rfl nothing rfl⟩
  | @sends q place _ =>
    obtain rfl : p = q + 1 := flush_place inside place
    refine .inl ⟨q + 1, rfl, ?_⟩
    have queue : 1 ≤ q + 1 ∧ q + 1 ≤ c.loop.queue.countq := ⟨Nat.le_add_left _ _, h.range⟩
    have sent := queueStep_flushSend alive queue
    have ready : Ready (sendNext (q + 1) c.loop.queue) :=
      ready_step (e := .flushSend (q + 1)) h.ready trivial trivial sent
    have living := h.ready.sendNext_alive queue
    rcases sendNext_cases (q + 1) c.loop.queue with same | ⟨i, _, _, result⟩
    · refine h.still ready rfl ?_ ?_ ?_ nothing rfl
      · exact congrArg QueueState.copies same
      · exact congrArg QueueState.countq same
      · exact congrArg QueueState.quelist same
    · rw [result] at living
      obtain ⟨point, trail, links, written⟩ := sendFile_alive h.ready.spool queue.1 living
      have listed := ((h.ready.synced.agrees queue.1 queue.2).listed i).mpr links.here
      exact h.sent queue.1 listed links rfl nothing rfl ready (result.trans written)
  | @descends q place empty =>
    obtain rfl : p = q + 1 := flush_place inside place
    exact .inl ⟨q, rfl, h.descends h.ready rfl rfl nothing rfl empty⟩
  | returns place =>
    obtain rfl : p = 0 := flush_place inside place
    exact .inr ⟨rfl, h.still h.ready rfl rfl rfl rfl nothing rfl⟩
  | @answers q i code place =>
    have owed := answers (.response i code (getmonotime c.loop.clock)) rfl
    have answered := queueStep_response alive i code (getmonotime c.loop.clock)
    have ready := ready_step h.ready owed trivial answered
    have outcome := queueStep_outcome h.ready.spool h.ready.synced answered ready.alive
    exact .inl ⟨p, inside, h.answered owed rfl rfl rfl ready rfl outcome⟩
  | @ends q place =>
    rw [place] at inside
    obtain rfl := Option.some.inj inside
    exact .inl ⟨q, rfl, h.still h.ready rfl rfl rfl rfl nothing rfl⟩

theorem Swept.flushed (h : Swept c 0) (returned : c.loop.place = .signals) : Flushed c := by
  have incoming := h.ready.synced.incoming
  refine ⟨⟨h.ready.alive, returned⟩, h.once, ?_, ?_, h.count⟩
  · apply List.eq_nil_iff_forall_not_mem.mpr
    intro e member
    have deferred := (h.above IN e.inode (by decide) incoming (List.mem_map_of_mem member)).1
    exact absurd deferred (by decide)
  · intro q low high i listed
    exact (h.above q i (by omega) high listed).2

/-- The call begins, at a spool in order with counters that are right. -/
structure Entry (s : LoopState) : Prop where
  tracked : Tracked s.queue
  alive : s.queue.exited = false
  place : s.place = .flush s.queue.countq

private theorem find_reverse_unique {l : List (Nat × Ino)} {x : Nat × Ino}
    (nodup : (l.map Prod.snd).Nodup) (member : x ∈ l) :
    l.reverse.find? (fun y => y.2 = x.2) = some x := by
  cases found : l.reverse.find? fun y => y.2 = x.2 with
  | none =>
    have missing := List.find?_eq_none.mp found x (List.mem_reverse.mpr member)
    simp at missing
  | some y =>
    have inside := List.mem_reverse.mp (List.mem_of_find?_eq_some found)
    have same : y.2 = x.2 := by simpa using List.find?_some found
    rw [List.inj_on_of_nodup_map nodup inside member same]

theorem Entry.swept {s : LoopState} (h : Entry s) (sendable : Sendable s.queue) :
    Swept (FlushCall.start s) s.queue.countq := by
  have flight := h.tracked.flight h.alive
  have synced := h.tracked.conserved.synced h.alive
  have unwritten : (FlushCall.start s).written = [] := by
    simp [FlushCall.written, FlushCall.start]
  refine ⟨⟨h.tracked.conserved, h.alive, flight, sendable⟩, Nat.le_refl _, Nat.le_refl _, ?_, ?_, ?_,
    ?_, ?_, rfl⟩
  · intro e member
    exact (synced.active e member).2
  · intro e member
    have sendings : (FlushCall.start s).sendings =
        (s.queue.quelist ACT).msg.map fun e => (e.state, e.inode) := by
      rw [FlushCall.sendings, unwritten]
      exact List.append_nil _
    have nodup :
        (((s.queue.quelist ACT).msg.map fun e => (e.state, e.inode)).map Prod.snd).Nodup := by
      rw [List.map_map]
      exact flight.nodup
    have found := find_reverse_unique nodup (List.mem_map_of_mem member)
    rw [FlushCall.lastSent, sendings, found]
    rfl
  · intro q i beyond high _
    exact absurd high (Nat.not_le.mpr beyond)
  · intro q i _ _ _ _
    rw [unwritten]
    exact List.not_mem_nil
  · rw [unwritten]
    exact List.nodup_nil

end Calls

end IecUtils.Queue.Flush
