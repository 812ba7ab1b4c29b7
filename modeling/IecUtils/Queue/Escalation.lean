/- Module: IecUtils/Queue/Escalation
   source: check_response, flush_queue and main of quemngr/quemngr.c
   digest: A message goes up one queue with each failed attempt and is tried once in each. -/

import IecUtils.Queue.InFlight

set_option autoImplicit false
set_option relaxedAutoImplicit false

namespace IecUtils.Queue.Escalation

open IecUtils.Foundation.LinkTable
open IecUtils.Foundation.Transition
open IecUtils.Queue.Files
open IecUtils.Queue.Heap
open IecUtils.Queue.Control
open IecUtils.Queue.Manager
open IecUtils.Queue.Effects
open IecUtils.Queue.Conservation
open IecUtils.Queue.InFlight

/-- The sender keeps its word, and a new file has an inode number that no message of
this run has had. -/
def Honest (m : QueueState) : QueueEvent → Prop
  | .arrive i => ∀ p ∈ m.trail, i ∉ p.held
  | e => Answers m e

instance (m : QueueState) (e : QueueEvent) : Decidable (Honest m e) :=
  match e with
  | .arrive i => inferInstanceAs (Decidable (∀ p ∈ m.trail, i ∉ p.held))
  | .response i code now => inferInstanceAs (Decidable (Answers m (.response i code now)))
  | .signal _ => isTrue trivial
  | .scan _ _ => isTrue trivial
  | .sendIn => isTrue trivial
  | .flushSend _ => isTrue trivial
  | .expire => isTrue trivial

/-- How often the inode was written to the sender's pipe: a link that was made is
followed by the write. -/
def writes (m : QueueState) (i : Ino) : Nat :=
  m.copies.countP fun c => c.ino = i ∧ c.error = none

def Fails (i : Ino) : QueueEvent → Prop
  | .response j code _ => j = i ∧ code ≠ 0 ∧ code ≠ 1
  | _ => False

instance (i : Ino) (e : QueueEvent) : Decidable (Fails i e) :=
  match e with
  | .response j code _ => inferInstanceAs (Decidable (j = i ∧ code ≠ 0 ∧ code ≠ 1))
  | .arrive _ => isFalse id
  | .signal _ => isFalse id
  | .scan _ _ => isFalse id
  | .sendIn => isFalse id
  | .flushSend _ => isFalse id
  | .expire => isFalse id

/-- The failed attempts among the events of a run. -/
def failures (i : Ino) (es : List QueueEvent) : Nat := es.countP fun e => Fails i e

theorem Honest.answers {m : QueueState} {e : QueueEvent} (h : Honest m e) : Answers m e := by
  cases e with
  | arrive i => trivial
  | _ => exact h

section Places

variable {m m' : QueueState} {e : QueueEvent} {i : Ino}

/-- What is in a queue after a final answer was there before and is another message, or it is the
one that was moved there. -/
private theorem departs_queued {fs fs' : Fs} {s r : Nat} {i j : Ino} {dst : Option Dir}
    (links : Departs fs fs' s i dst) (spool : Spool fs) (there : Has fs' (.que r) j) :
    Has fs (.que r) j ∧ j ≠ i ∨ j = i ∧ dst = some (.que r) := by
  rcases (links.links _ _).mp there with ⟨old, kept⟩ | moved
  · left
    refine ⟨old, ?_⟩
    rintro rfl
    exact kept ⟨rfl, .inr (congrArg Dir.que (spool.queue_unique old links.here))⟩
  · exact .inr moved

private theorem goes_fail {dst : Option Dir} {d : Dir} (away : dst = none ∨ dst = some .fail)
    (goes : dst = some d) : d = .fail := by
  rcases away with none | fail
  · rw [none] at goes
    cases goes
  · rw [fail] at goes
    exact (Option.some.inj goes).symm

/-- A message that is in a queue before and after a step has gone up by one if the
step was its failure and is where it was otherwise. -/
private theorem outcome_level {q q' : Nat} (spool : Spool m.disk.fs) (flight : Flight m)
    (answers : Answers m e) (outcome : Outcome m e m') (before : Has m.disk.fs (.que q) i)
    (after : Has m'.disk.fs (.que q') i) : q' = q + if Fails i e then 1 else 0 := by
  have stays (quiet : ¬ Fails i e) (old : Has m.disk.fs (.que q') i) :
      q' = q + if Fails i e then 1 else 0 := by
    rw [if_neg quiet]
    exact spool.queue_unique old before
  have copied {fs' : Fs} {r : Nat} {j : Ino} (links : Copied m.disk.fs fs' r j)
      (there : Has fs' (.que q') i) : Has m.disk.fs (.que q') i := by
    rcases (links.links _ _).mp there with old | ⟨impossible, _⟩
    · exact old
    · cases impossible
  cases outcome with
  | idle silent =>
    refine stays ?_ after
    cases e with
    | response j code now => exact absurd rfl (silent j code now)
    | _ => exact id
  | arrived links =>
    rcases (links _ _).mp after with old | ⟨impossible, _⟩
    · exact stays id old
    · cases impossible
  | scanned links _ =>
    rcases (links.links _ _).mp after with ⟨old, _⟩ | ⟨_, member⟩
    · exact stays id old
    · have both := spool.once (links.here i member) before (by decide)
        (fun active => by cases active)
      cases both
  | sent _ _ _ links cause =>
    rcases cause with ⟨rfl, _⟩ | rfl
    · exact stays id (copied links after)
    · exact stays id (copied links after)
  | expired => exact stays id after
  | fired _ _ links => exact stays id (copied links after)
  | stray missing =>
    exact absurd (flight.due.subset (List.mem_map_of_mem (f := Prod.fst) answers)) missing
  | confirmed => exact stays (fun fails => fails.2.2 rfl) after
  | @settled elem _ _ _ _ _ _ _ links away =>
    rcases departs_queued links spool after with ⟨old, other⟩ | ⟨_, there⟩
    · exact stays (fun fails => other fails.1.symm) old
    · cases goes_fail away there
  | @requeued elem _ _ _ _ _ failed final _ links =>
    rcases departs_queued links spool after with ⟨old, other⟩ | ⟨rfl, there⟩
    · exact stays (fun fails => other fails.1.symm) old
    · have level := spool.queue_unique before links.here
      injection there with there
      injection there with there
      rw [if_pos ⟨rfl, failed, final⟩, level, there]

/-- A message of an earlier point that is no longer anywhere it could be sent from. -/
structure Gone (m : QueueState) (i : Ino) : Prop where
  known : ∃ p ∈ m.trail, i ∈ p.held
  undropped : ¬ Has m.disk.fs .drop i
  unqueued : ∀ q, ¬ Has m.disk.fs (.que q) i

/-- Every name was written for a message that the spool held at some point. -/
structure Remembered (m : QueueState) : Prop where
  here : m.disk ∈ m.trail
  copied : ∀ c ∈ m.copies, ∃ p ∈ m.trail, c.ino ∈ p.held

private theorem outcome_gone (honest : Honest m e)
    (trail : m.trail ⊆ m'.trail) (outcome : Outcome m e m')
    (gone : Gone m i) : Gone m' i := by
  obtain ⟨⟨p, passed, held⟩, undropped, unqueued⟩ := gone
  have copied {fs' : Fs} {r : Nat} {j : Ino} {d : Dir} (links : Copied m.disk.fs fs' r j)
      (outside : d ≠ .act) (absent : ¬ Has m.disk.fs d i) : ¬ Has fs' d i := by
    intro there
    rcases (links.links _ _).mp there with old | ⟨active, _⟩
    · exact absent old
    · exact outside active
  have departed {fs' : Fs} {s : Nat} {j : Ino} {dst : Option Dir} {d : Dir}
      (links : Departs m.disk.fs fs' s j dst) (absent : ¬ Has m.disk.fs d i) : ¬ Has fs' d i := by
    intro there
    rcases (links.links _ _).mp there with ⟨old, _⟩ | ⟨rfl, _⟩
    · exact absent old
    · exact unqueued s links.here
  refine ⟨⟨p, trail passed, held⟩, ?_, ?_⟩
  · cases outcome with
    | arrived links =>
      intro there
      rcases (links _ _).mp there with old | ⟨_, rfl⟩
      · exact undropped old
      · exact honest p passed held
    | scanned links _ =>
      intro there
      rcases (links.links _ _).mp there with ⟨old, _⟩ | ⟨impossible, _⟩
      · exact undropped old
      · cases impossible
    | sent _ _ _ links _ => exact copied links (fun active => by cases active) undropped
    | fired _ _ links => exact copied links (fun active => by cases active) undropped
    | settled _ _ links _ => exact departed links undropped
    | requeued _ _ _ _ links => exact departed links undropped
    | _ => exact undropped
  · intro q
    cases outcome with
    | arrived links =>
      intro there
      rcases (links _ _).mp there with old | ⟨impossible, _⟩
      · exact unqueued q old
      · cases impossible
    | scanned links _ =>
      intro there
      rcases (links.links _ _).mp there with ⟨old, _⟩ | ⟨_, member⟩
      · exact unqueued q old
      · exact undropped (links.here i member)
    | sent _ _ _ links _ => exact copied links (fun active => by cases active) (unqueued q)
    | fired _ _ links => exact copied links (fun active => by cases active) (unqueued q)
    | settled _ _ links _ => exact departed links (unqueued q)
    | requeued _ _ _ _ links => exact departed links (unqueued q)
    | _ => exact unqueued q

private theorem outcome_left {q : Nat} (spool : Spool m.disk.fs) (held : i ∈ m.disk.held)
    (here : m.disk ∈ m.trail) (trail : m.trail ⊆ m'.trail) (outcome : Outcome m e m')
    (before : Has m.disk.fs (.que q) i) :
    (∃ q', Has m'.disk.fs (.que q') i) ∨ Gone m' i := by
  have aside : ¬ Has m.disk.fs .drop i := by
    intro there
    have same := spool.once there before (by decide) (fun active => by cases active)
    cases same
  cases outcome with
  | arrived links => exact .inl ⟨q, (links _ _).mpr (.inl before)⟩
  | scanned links _ =>
    refine .inl ⟨q, (links.links _ _).mpr (.inl ⟨before, ?_⟩)⟩
    rintro ⟨impossible, _⟩
    cases impossible
  | sent _ _ _ links _ => exact .inl ⟨q, (links.links _ _).mpr (.inl before)⟩
  | fired _ _ links => exact .inl ⟨q, (links.links _ _).mpr (.inl before)⟩
  | @settled elem _ _ _ _ dst _ _ links away =>
    by_cases own : i = elem.inode
    · right
      refine ⟨⟨m.disk, trail here, held⟩, ?_, ?_⟩
      · intro there
        rcases (links.links _ _).mp there with ⟨old, _⟩ | ⟨_, drop⟩
        · exact aside old
        · cases goes_fail away drop
      · intro r there
        rcases departs_queued links spool there with ⟨_, other⟩ | ⟨_, queue⟩
        · exact other own
        · cases goes_fail away queue
    · exact .inl ⟨q, (links.links _ _).mpr (.inl ⟨before, fun both => own both.1⟩)⟩
  | @requeued elem _ _ _ _ _ _ _ _ links =>
    by_cases own : i = elem.inode
    · exact .inl ⟨elem.state + 1, (links.links _ _).mpr (.inr ⟨own, rfl⟩)⟩
    · exact .inl ⟨q, (links.links _ _).mpr (.inl ⟨before, fun both => own both.1⟩)⟩
  | _ => exact .inl ⟨q, before⟩

end Places

/-- The attempts so far: none before the message is taken in, at most one for each
queue it has been in, and the one for its own queue is in flight. -/
structure Leveled (m : QueueState) : Prop where
  waiting : ∀ i, Has m.disk.fs .drop i → writes m i = 0
  queued : ∀ q i, 1 ≤ q → Has m.disk.fs (.que q) i →
    writes m i + 1 ≤ q + if i ∈ (m.quelist ACT).inodes then 1 else 0

section Attempts

variable {m m' : QueueState} {e : QueueEvent} {q : Nat} {i : Ino}

/-- Nothing is written. Each message is where it was and as much in flight, or in a
queue above the attempts so far. -/
private theorem Leveled.keep (h : Leveled m) (copies : m'.copies = m.copies)
    (drop : ∀ j, Has m'.disk.fs .drop j → Has m.disk.fs .drop j ∨ writes m j = 0)
    (queues : ∀ r j, 1 ≤ r → Has m'.disk.fs (.que r) j →
      Has m.disk.fs (.que r) j ∧ (j ∈ (m.quelist ACT).inodes → j ∈ (m'.quelist ACT).inodes) ∨
        writes m j + 1 ≤ r) : Leveled m' := by
  have same (j : Ino) : writes m' j = writes m j := by
    rw [writes, copies, writes]
  refine ⟨?_, ?_⟩
  · intro j there
    rw [same]
    rcases drop j there with old | none
    · exact h.waiting j old
    · exact none
  · intro r j queue there
    rw [same]
    rcases queues r j queue there with ⟨old, flies⟩ | bound
    · have before := h.queued r j queue old
      split
      · split at before
        · exact before
        · omega
      · rename_i idle
        rw [if_neg fun flying => idle (flies flying)] at before
        exact before
    · omega

private theorem writes_append (j : Ino) {busy : Bool} {copies : List Copy} {error : Option Errno}
    (logged : m'.copies = copies ++ [⟨q, i, busy, error⟩]) :
    writes m' j = (copies.countP fun c => c.ino = j ∧ c.error = none) +
      if i = j ∧ error = none then 1 else 0 := by
  rw [writes, logged, List.countP_append, List.countP_singleton]
  simp only [decide_eq_true_eq]

private theorem leveled_dispatch {p : Point} {trail : List Point} (h : Leveled m)
    (spool : Spool m.disk.fs) (flight : Flight m) (queue : 1 ≤ q)
    (links : Copied m.disk.fs p.fs q i) :
    Leveled (dispatch q i ((m.logCopy q i none).onDisk p trail)) := by
  have act : (dispatch q i ((m.logCopy q i none).onDisk p trail)).quelist ACT =
      elemAdd (m.quelist ACT) (elemNew i ⟨0, 0⟩ q) := dispatch_act _ _ (queue_ne_act queue)
  have count (j : Ino) : writes (dispatch q i ((m.logCopy q i none).onDisk p trail)) j =
      writes m j + if i = j then 1 else 0 := by
    have logged : (dispatch q i ((m.logCopy q i none).onDisk p trail)).copies =
        m.copies ++ [⟨q, i, decide (i ∈ (m.quelist ACT).inodes), none⟩] := rfl
    rw [writes_append j logged]
    simp only [and_true]
    rfl
  have old {d : Dir} {j : Ino} (outside : d ≠ .act) (there : Has p.fs d j) : Has m.disk.fs d j := by
    rcases (links.links _ _).mp there with before | ⟨active, _⟩
    · exact before
    · exact absurd active outside
  have idle : i ∉ (m.quelist ACT).inodes := fun flying => links.idle (flight.linked i flying)
  refine ⟨?_, ?_⟩
  · intro j there
    have before := old (by decide) there
    have apart : i ≠ j := by
      rintro rfl
      have both := spool.once before links.here (by decide) (fun active => by cases active)
      cases both
    rw [count, if_neg apart]
    exact h.waiting j before
  · intro r j other there
    have before := old (fun active => by cases active) there
    have bound := h.queued r j other before
    rw [count, act, elemAdd_inodes]
    by_cases same : i = j
    · subst same
      obtain rfl := spool.queue_unique before links.here
      rw [if_neg idle] at bound
      have flying : i ∈ (m.quelist ACT).inodes ++ [(elemNew i ⟨0, 0⟩ r).inode] :=
        List.mem_append_right _ (List.mem_singleton_self _)
      rw [if_pos rfl, if_pos flying]
      omega
    · have flying : j ∈ (m.quelist ACT).inodes ++ [(elemNew i ⟨0, 0⟩ q).inode] ↔
          j ∈ (m.quelist ACT).inodes := by
        rw [List.mem_append, List.mem_singleton]
        exact or_iff_left (Ne.symm same)
      rw [if_neg same]
      simp only [flying]
      exact bound

private theorem kept_flying {j : Ino} {l l' : Msglist} (act : l' = elemDel l i) (other : j ≠ i)
    (flying : j ∈ l.inodes) : j ∈ l'.inodes := by
  rw [act]
  exact mem_elemDel flying other

theorem outcome_leveled (h : Leveled m) (spool : Spool m.disk.fs) (synced : Synced m)
    (flight : Flight m) (remembered : Remembered m) (honest : Honest m e)
    (outcome : Outcome m e m') : Leveled m' := by
  cases outcome with
  | idle => exact h
  | @arrived i p trail links _ =>
    have unwritten : writes m i = 0 := by
      refine List.countP_eq_zero.mpr ?_
      intro c member wrote
      obtain ⟨p, passed, held⟩ := remembered.copied c member
      rw [(of_decide_eq_true wrote).1] at held
      exact honest p passed held
    refine h.keep rfl ?_ ?_
    · intro j there
      rcases (links _ _).mp there with old | ⟨_, rfl⟩
      · exact .inl old
      · exact .inr unwritten
    · intro r j _ there
      rcases (links _ _).mp there with old | ⟨impossible, _⟩
      · exact .inl ⟨old, id⟩
      · cases impossible
  | scanned links _ =>
    refine h.keep rfl ?_ ?_
    · intro j there
      rcases (links.links _ _).mp there with ⟨old, _⟩ | ⟨impossible, _⟩
      · exact .inl old
      · cases impossible
    · intro r j queue there
      rcases (links.links _ _).mp there with ⟨old, _⟩ | ⟨_, member⟩
      · left
        rw [put_other _ _ (by decide)]
        exact ⟨old, id⟩
      · right
        rw [h.waiting j (links.here j member), Nat.zero_add]
        exact queue
  | sent queue _ _ links _ => exact leveled_dispatch h spool flight queue.1 links
  | expired => exact ⟨h.waiting, h.queued⟩
  | @fired node p trail min _ links =>
    have low := (synced.timers node (List.mem_of_getElem? min)).1
    have sent : Leveled (dispatch node.indque (definode node.inode)
        ((m.logCopy node.indque (definode node.inode) none).onDisk p trail)) :=
      leveled_dispatch h spool flight (by omega) links
    exact ⟨sent.waiting, sent.queued⟩
  | stray => exact ⟨h.waiting, h.queued⟩
  | @confirmed elem _ member =>
    have low := (synced.active elem member).1
    refine h.keep rfl (fun j there => .inl there) ?_
    intro r j _ there
    left
    rw [put_other _ _ (Ne.symm (queue_ne_act low))]
    exact ⟨there, id⟩
  | @settled elem _ _ _ _ dst member _ links away =>
    have low := (synced.active elem member).1
    refine h.keep rfl ?_ ?_
    · intro j there
      rcases (links.links _ _).mp there with ⟨old, _⟩ | elsewhere
      · exact .inl old
      · cases goes_fail away elsewhere.2
    · intro r j _ there
      rcases departs_queued links spool there with ⟨old, other⟩ | ⟨_, elsewhere⟩
      · exact .inl ⟨old, kept_flying (settle_act _ _ (queue_ne_act low)) other⟩
      · cases goes_fail away elsewhere
  | @requeued elem _ _ _ _ member _ _ _ links =>
    have low := (synced.active elem member).1
    refine h.keep rfl ?_ ?_
    · intro j there
      rcases (links.links _ _).mp there with ⟨old, _⟩ | ⟨_, elsewhere⟩
      · exact .inl old
      · cases elsewhere
    · intro r j _ there
      rcases departs_queued links spool there with ⟨old, other⟩ | ⟨rfl, elsewhere⟩
      · exact .inl ⟨old, kept_flying (requeue_act _ _ _ (queue_ne_act low)) other⟩
      · right
        have flying : elem.inode ∈ (m.quelist ACT).inodes := List.mem_map_of_mem member
        have bound := h.queued elem.state elem.inode low links.here
        rw [if_pos flying] at bound
        injection elsewhere with elsewhere
        injection elsewhere with elsewhere
        omega

private theorem attempt_listed (synced : Synced m) (attempt : Attempt m e q i) :
    (1 ≤ q ∧ q ≤ m.countq) ∧ i ∈ (m.quelist q).inodes := by
  cases attempt with
  | next queue _ file _ =>
    obtain ⟨elem, entry, inode⟩ := Option.map_eq_some_iff.mp file
    exact ⟨queue, inode ▸ List.mem_map_of_mem (List.mem_of_getElem? entry)⟩
  | @timer node min listed =>
    obtain ⟨low, high⟩ := synced.timers node (List.mem_of_getElem? min)
    exact ⟨⟨by omega, high⟩, listed⟩

private theorem queueStep_remembered (h : Remembered m) (conserved : Conserved m)
    (happens : queueStep m e = some m') : Remembered m' := by
  have synced := conserved.synced (queueStep_living happens)
  have accounts := conserved.recorded.now
  obtain ⟨here, grows⟩ := queueStep_trail accounts.spool synced happens h.here
  refine ⟨here, ?_⟩
  intro c member
  have before (old : c ∈ m.copies) : ∃ p ∈ m'.trail, c.ino ∈ p.held := by
    obtain ⟨p, passed, held⟩ := h.copied c old
    exact ⟨p, grows passed, held⟩
  rcases queueStep_copies synced.incoming happens with same | ⟨q, i, attempt, logged⟩
  · rw [same] at member
    exact before member
  · rw [logged] at member
    rcases List.mem_append.mp member with old | new
    · exact before old
    · obtain ⟨queue, listed⟩ := attempt_listed synced attempt
      have there := ((synced.agrees queue.1 queue.2).listed i).mp listed
      rw [List.mem_singleton.mp new]
      refine ⟨m.disk, grows h.here, (accounts.held i).mpr ⟨.que q, ?_, there⟩⟩
      exact fun active => by cases active

private theorem queueStep_bounded {n : Nat} (h : Leveled m) (spool : Spool m.disk.fs)
    (synced : Synced m) (flight : Flight m) (count : m.countq = n)
    (bounded : ∀ i, writes m i ≤ n) (happens : queueStep m e = some m') :
    ∀ i, writes m' i ≤ n := by
  intro i
  rcases queueStep_copies synced.incoming happens with same | ⟨q, j, attempt, logged⟩
  · rw [writes, same]
    exact bounded i
  · obtain ⟨queue, listed⟩ := attempt_listed synced attempt
    rw [writes_append i logged]
    split
    · rename_i wrote
      obtain ⟨rfl, done⟩ := wrote
      have here := ((synced.agrees queue.1 queue.2).listed j).mp listed
      have idle : j ∉ (m.quelist ACT).inodes := by
        intro flying
        unfold copyError copyCall at done
        rw [dirOf_queue queue.1] at done
        split at done
        · rename_i fs' linked
          exact (spool.copy linked).2.1 (flight.linked j flying)
        · cases done
      have bound := h.queued q j queue.1 here
      rw [if_neg idle, writes] at bound
      omega
    · exact bounded i

/-- The answer for a message that the sender gives up: it is in the next queue, or in `fail`
if there is none. -/
theorem failed_answer {elem : Msg} {code : Int} {now : Timeval} (spool : Spool m.disk.fs)
    (synced : Synced m) (flight : Flight m) (member : elem ∈ (m.quelist ACT).msg)
    (failed : code ≠ 0) (final : code ≠ 1)
    (happens : queueStep m (.response elem.inode code now) = some m') (alive : m'.exited = false) :
    if elem.state = m.countq then Has m'.disk.fs .fail elem.inode
    else elem.inode ∈ (m'.quelist (elem.state + 1)).inodes := by
  have low := (synced.active elem member).1
  obtain ⟨_, ⟨⟩⟩ := queueStep_performs happens
  unfold checkResponse at alive ⊢
  cases found : elemFind (m.quelist ACT) elem.inode with
  | none => exact absurd (List.mem_map_of_mem member) (elemFind_none found)
  | some n =>
    obtain ⟨other, entry, inside, inode⟩ := elemFind_some found
    obtain rfl := flight.entry_unique inside member inode
    have found' : elemFind ((m.answer other.inode code).quelist ACT) other.inode = some n := found
    have entry' : ((m.answer other.inode code).quelist ACT).msg[n]? = some other := entry
    rw [found'] at alive ⊢
    simp only [entry', if_neg failed, if_neg final, dirOf_queue low,
      dirOf_queue (Nat.le_add_left 1 other.state)] at alive ⊢
    by_cases last : other.state = m.countq
    · have last' : other.state = (m.answer other.inode code).countq := last
      rw [if_pos last'] at alive
      rw [if_pos last, if_pos last']
      obtain ⟨f, fs', done, spool', linked, released, p, trail, disk, result⟩ :=
        final_alive (m := m.answer other.inode code) spool alive
      rw [result]
      have links := departs_rename spool' linked released (fun h => by cases h)
        (fun h => by cases h) done
      rw [← disk] at links
      exact (links.links _ _).mpr (.inr ⟨rfl, rfl⟩)
    · have last' : other.state ≠ (m.answer other.inode code).countq := last
      rw [if_neg last'] at alive
      rw [if_neg last, if_neg last']
      obtain ⟨_, _, _, _, _, _, p, trail, _, result⟩ :=
        final_alive (m := m.answer other.inode code) spool alive
      rw [result, requeue_queue _ _ _ (queue_ne_act (Nat.le_add_left 1 _)),
        if_neg (Nat.succ_ne_self _), if_pos rfl, elemAdd_inodes]
      exact List.mem_append_right _ (List.mem_singleton_self _)

end Attempts

/-- What every state satisfies when the sender keeps its word and inode numbers are not
used again; `n` is the number of queues. -/
structure Climbing (n : Nat) (m : QueueState) : Prop where
  tracked : Tracked m
  remembered : Remembered m
  bounded : ∀ i, writes m i ≤ n
  leveled : m.exited = false → m.countq = n ∧ Leveled m

/-- The attempts up to a state, and what becomes of its messages. -/
structure Escalates (n : Nat) (m : QueueState) : Prop where
  bounded : ∀ i, writes m i ≤ n
  rises : ∀ {es : List QueueEvent} {m' : QueueState} {i : Ino} {q q' : Nat},
    Guarded queueStep Honest m es → run queueStep m es = some m' → m'.exited = false →
      1 ≤ q → q ≤ m.countq → i ∈ (m.quelist q).inodes →
      1 ≤ q' → q' ≤ m'.countq → i ∈ (m'.quelist q').inodes → q' = q + failures i es
  fails : ∀ {e : QueueEvent} {m' : QueueState} {i : Ino} {q : Nat},
    Honest m e → Fails i e → queueStep m e = some m' → m'.exited = false →
      1 ≤ q → q ≤ m.countq → i ∈ (m.quelist q).inodes →
      if q = m.countq then Has m'.disk.fs .fail i else i ∈ (m'.quelist (q + 1)).inodes

section Runs

variable {m m' : QueueState} {e : QueueEvent} {n : Nat} {i : Ino} {fs : Fs} {deferred : Nat}
  {timeout : Nat → Nat} {restored : Nat → List Msg}

theorem queueStep_climbing (h : Climbing n m) (honest : Honest m e)
    (happens : queueStep m e = some m') : Climbing n m' := by
  have living := queueStep_living happens
  have synced := h.tracked.conserved.synced living
  have flight := h.tracked.flight living
  have spool := h.tracked.conserved.recorded.now.spool
  obtain ⟨count, leveled⟩ := h.leveled living
  refine ⟨queueStep_tracked h.tracked honest.answers happens,
    queueStep_remembered h.remembered h.tracked.conserved happens,
    queueStep_bounded leveled spool synced flight count h.bounded happens, fun alive => ?_⟩
  have outcome := queueStep_outcome spool synced happens alive
  exact ⟨(outcome_countq outcome).trans count,
    outcome_leveled leveled spool synced flight h.remembered honest outcome⟩

theorem initqueue_climbing (spool : Spool fs) (lists : Restores fs deferred restored) :
    Climbing (deferred + 1) (initqueue fs deferred timeout restored) := by
  refine ⟨initqueue_tracked spool lists, ⟨List.mem_singleton_self _, ?_⟩, fun _ => Nat.zero_le _,
    fun _ => ⟨rfl, fun _ _ => rfl, ?_⟩⟩
  · intro c member
    cases member
  · intro q i queue _
    exact queue

private theorem run_living {es : List QueueEvent} (reached : run queueStep m es = some m')
    (alive : m'.exited = false) : m.exited = false := by
  cases es with
  | nil =>
    obtain rfl := Option.some.inj reached
    exact alive
  | cons e es =>
    obtain ⟨t, first, _⟩ := Option.bind_eq_some_iff.mp reached
    exact queueStep_living first

private theorem run_gone {es : List QueueEvent} (h : Climbing n m) (gone : Gone m i)
    (honest : Guarded queueStep Honest m es) (reached : run queueStep m es = some m')
    (alive : m'.exited = false) : Gone m' i := by
  have invariant : Climbing n m' ∧ (m'.exited = false → Gone m' i) := by
    refine guarded_invariant (I := fun m => Climbing n m ∧ (m.exited = false → Gone m i)) ?_
      ⟨h, fun _ => gone⟩ honest reached
    rintro s e t ⟨climbing, gone⟩ meets happens
    refine ⟨queueStep_climbing climbing meets happens, fun alive => ?_⟩
    have living := queueStep_living happens
    have synced := climbing.tracked.conserved.synced living
    have spool := climbing.tracked.conserved.recorded.now.spool
    obtain ⟨_, grows⟩ := queueStep_trail spool synced happens climbing.remembered.here
    exact outcome_gone meets grows (queueStep_outcome spool synced happens alive) (gone living)
  exact invariant.2 alive

/-- The induction is on the run; a message of a queue is in a queue after a step, or gone
for good. -/
private theorem run_level {es : List QueueEvent} {q q' : Nat} (h : Climbing n m)
    (honest : Guarded queueStep Honest m es) (reached : run queueStep m es = some m')
    (alive : m'.exited = false) (before : Has m.disk.fs (.que q) i)
    (after : Has m'.disk.fs (.que q') i) : q' = q + failures i es := by
  induction es generalizing m q with
  | nil =>
    obtain rfl := Option.some.inj reached
    exact h.tracked.conserved.recorded.now.spool.queue_unique after before
  | cons e es ih =>
    obtain ⟨t, first, rest⟩ := Option.bind_eq_some_iff.mp reached
    have later := queueStep_climbing h honest.1 first
    have living := queueStep_living first
    have synced := h.tracked.conserved.synced living
    have flight := h.tracked.flight living
    have accounts := h.tracked.conserved.recorded.now
    have outcome := queueStep_outcome accounts.spool synced first (run_living rest alive)
    obtain ⟨_, grows⟩ := queueStep_trail accounts.spool synced first h.remembered.here
    have held : i ∈ m.disk.held :=
      (accounts.held i).mpr ⟨.que q, fun active => (by cases active), before⟩
    rcases outcome_left accounts.spool held h.remembered.here grows outcome before with
      ⟨r, between⟩ | gone
    · have step := outcome_level accounts.spool flight honest.1.answers outcome before between
      have tail := ih later (honest.2 t first) rest between
      rw [failures, List.countP_cons, tail, step, failures]
      simp only [decide_eq_true_eq]
      omega
    · exact absurd after ((run_gone later gone (honest.2 t first) rest alive).unqueued q')

/-- In every run in which the sender answers each file name with 1 and then once more and
no inode number is used again: a message goes up by one queue with each failed attempt and
never down, and is written to the pipe at most once for each queue. -/
theorem retries_bounded (spool : Spool fs) (lists : Restores fs deferred restored)
    {es : List QueueEvent}
    (honest : Guarded queueStep Honest (initqueue fs deferred timeout restored) es)
    (reached : run queueStep (initqueue fs deferred timeout restored) es = some m) :
    Escalates (initqueue fs deferred timeout restored).countq m := by
  have climbing : Climbing (deferred + 1) m :=
    guarded_invariant (fun _ _ _ inv meets happens => queueStep_climbing inv meets happens)
      (initqueue_climbing spool lists) honest reached
  refine ⟨climbing.bounded, ?_, ?_⟩
  · intro es m' i q q' meets later alive low high here low' high' there
    have last : Climbing (deferred + 1) m' :=
      guarded_invariant (fun _ _ _ inv meets happens => queueStep_climbing inv meets happens)
        climbing meets later
    have synced := climbing.tracked.conserved.synced (run_living later alive)
    have synced' := last.tracked.conserved.synced alive
    exact run_level climbing meets later alive (((synced.agrees low high).listed i).mp here)
      (((synced'.agrees low' high').listed i).mp there)
  · intro e m' i q meets fails happens alive low high here
    have living := queueStep_living happens
    have synced := climbing.tracked.conserved.synced living
    have flight := climbing.tracked.flight living
    have spool := climbing.tracked.conserved.recorded.now.spool
    cases e with
    | response j code now =>
      obtain ⟨rfl, failed, final⟩ := fails
      have flying := flight.due.subset (List.mem_map_of_mem (f := Prod.fst) meets)
      obtain ⟨elem, member, rfl⟩ := List.mem_map.mp flying
      have state := flight_state spool synced flight member ⟨low, high⟩ here
      rw [← state]
      exact failed_answer spool synced flight member failed final happens alive
    | _ => exact fails.elim

/-- A message fails in IN and, after its minute, once more in the only deferred queue. -/
theorem retries_bounded_twice :
    ∃ m, run queueStep (initqueue [] 1 (fun _ => 60) fun _ => [])
        [.arrive 5, .scan [⟨5, 5, ⟨7, 0⟩⟩] [⟨5, ⟨7, 0⟩, IN⟩], .sendIn, .response 5 1 ⟨8, 0⟩,
          .response 5 2 ⟨8, 0⟩, .expire, .response 5 1 ⟨68, 0⟩, .response 5 2 ⟨68, 0⟩] = some m ∧
      writes m 5 = 2 ∧ Has m.disk.fs .fail 5 ∧ Escalates 2 m := by
  have reached : run queueStep (initqueue [] 1 (fun _ => 60) fun _ => [])
      [.arrive 5, .scan [⟨5, 5, ⟨7, 0⟩⟩] [⟨5, ⟨7, 0⟩, IN⟩], .sendIn, .response 5 1 ⟨8, 0⟩,
        .response 5 2 ⟨8, 0⟩, .expire, .response 5 1 ⟨68, 0⟩, .response 5 2 ⟨68, 0⟩] = some _ := rfl
  refine ⟨_, reached, rfl, List.mem_singleton_self _, ?_⟩
  exact retries_bounded spool_nil (restores_nil 1) (by decide) reached

end Runs

end IecUtils.Queue.Escalation
