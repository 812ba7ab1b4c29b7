/- Module: IecUtils/Queue/FlushReturn
   source: flush_queue and check_response of quemngr/quemngr.c
   digest: flush_queue returns with all its work done exactly if nothing blocks a message. -/

import IecUtils.Foundation.Behaviour
import IecUtils.Queue.Flush
import IecUtils.Queue.Restart

set_option autoImplicit false
set_option relaxedAutoImplicit false

namespace IecUtils.Queue.FlushReturn

open IecUtils.Foundation.Transition
open IecUtils.Foundation.Behaviour
open IecUtils.Queue.Files
open IecUtils.Queue.Heap
open IecUtils.Queue.Control
open IecUtils.Queue.Manager
open IecUtils.Queue.Effects
open IecUtils.Queue.InFlight
open IecUtils.Queue.MainLoop
open IecUtils.Queue.Flush
open IecUtils.Queue.Restart

/-- The messages in the queues from IN to `p`. -/
def waiting (m : QueueState) : Nat → Nat
  | 0 => 0
  | p + 1 => waiting m p + (m.quelist (p + 1)).msg.length

/-- The answers that the sender has still to give. -/
def owed (due : List (Ino × Bool)) : Nat := due.length + due.countP fun d => d.2 = false

/-- An upper bound for the writes and answers to come in a call that is at queue `p`. A
message of a lower queue that is in flight may come back once. -/
def workAt (m : QueueState) (p : Nat) : Nat := p + 3 * (waiting m p - inFlight m p) + owed m.due

def workLeft (c : FlushCall) : Nat := c.loop.place.indque.elim 0 (workAt c.loop.queue)

section Measure

variable {m m' : QueueState} {p : Nat} {i : Ino}

private theorem owed_dispatched (due : List (Ino × Bool)) (i : Ino) :
    owed (due ++ [(i, false)]) = owed due + 2 := by
  unfold owed
  rw [List.length_append, List.countP_append]
  simp
  omega

private theorem owed_answered {due : List (Ino × Bool)} {code : Int}
    (member : (i, decide (code ≠ 1)) ∈ due) : owed (answered due i code) + 1 = owed due := by
  have perm := List.perm_cons_erase member
  have length := perm.length_eq
  have count := perm.countP_eq fun d : Ino × Bool => d.2 = false
  rw [List.length_cons] at length
  rw [List.countP_cons] at count
  unfold answered owed
  by_cases first : code = 1
  · rw [if_pos first, List.length_cons, List.countP_cons]
    simp [first] at length count ⊢
    omega
  · rw [if_neg first]
    simp [first] at length count ⊢
    omega

private theorem waiting_congr (lists : ∀ q, 1 ≤ q → q ≤ p →
    (m'.quelist q).msg.length = (m.quelist q).msg.length) : waiting m' p = waiting m p := by
  induction p with
  | zero => rfl
  | succ p ih =>
    rw [waiting, waiting, ih fun q low high => lists q low (Nat.le_succ_of_le high),
      lists (p + 1) (Nat.le_add_left _ _) (Nat.le_refl _)]

private theorem waiting_moved {a b : Nat} (source : 1 ≤ a) (target : 1 ≤ b)
    (lists : ∀ q, 1 ≤ q → q ≤ p → (m'.quelist q).msg.length + (if q = a then 1 else 0) =
      (m.quelist q).msg.length + if q = b then 1 else 0) :
    waiting m' p + (if a ≤ p then 1 else 0) = waiting m p + if b ≤ p then 1 else 0 := by
  induction p with
  | zero =>
    rw [if_neg (by omega), if_neg (by omega)]
    rfl
  | succ p ih =>
    have before := ih fun q low high => lists q low (Nat.le_succ_of_le high)
    have here := lists (p + 1) (Nat.le_add_left _ _) (Nat.le_refl _)
    rw [waiting, waiting]
    split_ifs at before here ⊢
    all_goals omega

private theorem elemDel_length {l : Msglist} (listed : i ∈ l.inodes) :
    (elemDel l i).msg.length + 1 = l.msg.length := by
  have erased := List.length_erase_of_mem listed
  have filled := List.length_pos_of_mem listed
  rw [← elemDel_inodes, Msglist.inodes, Msglist.inodes, List.length_map, List.length_map] at erased
  rw [Msglist.inodes, List.length_map] at filled
  omega

private theorem inFlight_le_waiting (flight : Flight m) (synced : Synced m) (p : Nat) :
    inFlight m p ≤ waiting m p := by
  cases p with
  | zero =>
    have none : inFlight m 0 = 0 := by
      apply List.countP_eq_zero.mpr
      intro e member
      have low := (synced.active e member).1
      simp only [decide_eq_true_eq]
      omega
    rw [none]
    exact Nat.zero_le _
  | succ p =>
    have bound := inFlight_le_total flight (p + 1)
    unfold Msglist.total at bound
    rw [waiting]
    omega

private theorem work_sent {point : Point} {trail : List Point} (flight : Flight m')
    (synced : Synced m') (low : 1 ≤ p)
    (sent : m' = dispatch p i ((m.logCopy p i none).onDisk point trail)) :
    workAt m' p < workAt m p := by
  have flying : inFlight m' p = inFlight m p + 1 := by
    rw [sent, dispatch_inFlight low, if_pos rfl]
  have lists : waiting m' p = waiting m p := by
    refine waiting_congr fun q queue _ => ?_
    have same : (m'.quelist q).inodes = (m.quelist q).inodes := by
      rw [sent]
      exact dispatch_inodes _ _ (queue_ne_act queue)
    have length := congrArg List.length same
    rw [Msglist.inodes, Msglist.inodes, List.length_map, List.length_map] at length
    exact length
  have due : owed m'.due = owed m.due + 2 := by
    rw [sent]
    exact owed_dispatched m.due i
  have room := inFlight_le_waiting flight synced p
  unfold workAt
  omega

/-- A final answer: the message goes from its queue to `b`, which is the next one or above
`p`. -/
private theorem work_final {elem : Msg} {b : Nat} (flight : Flight m) (synced : Synced m)
    (member : elem ∈ (m.quelist ACT).msg) (range : elem.state ≤ p) (target : 1 ≤ b)
    (goes : b = elem.state + 1 ∨ p < b)
    (act : m'.quelist ACT = elemDel (m.quelist ACT) elem.inode)
    (lists : ∀ q, 1 ≤ q → q ≤ p → (m'.quelist q).msg.length +
      (if q = elem.state then 1 else 0) = (m.quelist q).msg.length + if q = b then 1 else 0)
    (fewer : owed m'.due + 1 = owed m.due) : workAt m' p < workAt m p := by
  have queue := (synced.active elem member).1
  have removed := inFlight_removed flight.nodup member act p
  have moved := waiting_moved queue target lists
  have room := inFlight_le_waiting flight synced p
  rw [if_pos range] at moved
  unfold workAt
  split_ifs at removed moved
  all_goals omega

private theorem work_answered {code : Int} {now : Timeval} (flight : Flight m) (synced : Synced m)
    (low : ∀ e ∈ (m.quelist ACT).msg, e.state ≤ p) (owes : (i, decide (code ≠ 1)) ∈ m.due)
    (outcome : Outcome m (.response i code now) m') : workAt m' p < workAt m p := by
  have flying : i ∈ (m.quelist ACT).inodes :=
    flight.due.subset (List.mem_map_of_mem (f := Prod.fst) owes)
  have fewer := owed_answered owes
  have length {q : Nat} {elem : Msg} (member : elem ∈ (m.quelist ACT).msg) (same : q = elem.state) :
      (elemDel (m.quelist elem.state) elem.inode).msg.length + 1 = (m.quelist q).msg.length := by
    rw [same]
    exact elemDel_length (flight.listed elem member)
  cases outcome with
  | idle silent => exact absurd rfl (silent i code now)
  | sent _ _ _ _ cause =>
    rcases cause with ⟨impossible, _⟩ | impossible
    · cases impossible
    · cases impossible
  | stray missing => exact absurd flying missing
  | @confirmed elem _ member =>
    have queue := (synced.active elem member).1
    have act : inFlight ((m.answer elem.inode 1).put elem.state
        { m.quelist elem.state with conf := (m.quelist elem.state).conf + 1 }) p =
          inFlight m p := by
      rw [inFlight, put_other _ _ (Ne.symm (queue_ne_act queue))]
      rfl
    have lists : waiting ((m.answer elem.inode 1).put elem.state
        { m.quelist elem.state with conf := (m.quelist elem.state).conf + 1 }) p = waiting m p := by
      refine waiting_congr fun q _ _ => ?_
      by_cases same : q = elem.state
      · rw [same, put_same]
      · rw [put_other _ _ same]
        rfl
    unfold workAt
    rw [act, lists]
    exact Nat.add_lt_add_left (Nat.lt_of_succ_le (Nat.le_of_eq fewer)) _
  | @settled elem _ _ _ _ _ member _ _ _ =>
    have queue := (synced.active elem member).1
    refine work_final flight synced member (low elem member) (Nat.le_add_left 1 p)
      (.inr (Nat.lt_succ_self p)) (settle_act _ _ (queue_ne_act queue)) ?_ fewer
    intro q other bound
    rw [settle_queue _ _ (queue_ne_act other), if_neg (by omega : q ≠ p + 1)]
    split
    · rename_i same
      exact length member same
    · rfl
  | @requeued elem _ _ _ _ member _ _ _ _ =>
    have queue := (synced.active elem member).1
    refine work_final flight synced member (low elem member) (Nat.le_add_left 1 elem.state)
      (.inl rfl) (requeue_act _ _ _ (queue_ne_act queue)) ?_ fewer
    intro q other bound
    rw [requeue_queue _ _ _ (queue_ne_act other)]
    split
    · rename_i same
      rw [if_neg (by omega : q ≠ elem.state + 1)]
      exact length member same
    · split
      · rename_i next
        rw [elemAdd, List.length_append]
        rfl
      · rfl

private theorem work_descends (flight : Flight m) (empty : (m.quelist (p + 1)).total ≤ 0) :
    workAt m p < workAt m (p + 1) := by
  have bound := inFlight_le_total flight (p + 1)
  unfold Msglist.total at empty bound
  unfold workAt
  rw [waiting]
  omega

end Measure

/-- How a step brings the call on: `flush_queue` spins only as long as the sender owes an
answer. -/
inductive Pace (c : FlushCall) : LoopEvent → FlushCall → Prop
  | returns {e : LoopEvent} {c' : FlushCall} (place : c'.loop.place = .signals) : Pace c e c'
  | works {e : LoopEvent} {c' : FlushCall} (less : workLeft c' < workLeft c) : Pace c e c'
  | waits {e : LoopEvent} {c' : FlushCall} (due : c'.loop.queue.due = c.loop.queue.due)
      (work : workLeft c' = workLeft c) (place : c'.loop.place = c.loop.place)
      (other : e ≠ .turn ∧ e ≠ .next ∧ ∀ i code, e ≠ .response i code) : Pace c e c'
  | spins {e : LoopEvent} {c' : FlushCall} (turn : e = .turn)
      (due : c'.loop.queue.due = c.loop.queue.due) (work : workLeft c' = workLeft c)
      (owing : c.loop.queue.due ≠ []) : Pace c e c'
  | ends {e : LoopEvent} {c' : FlushCall} {q : Nat} (next : e = .next)
      (due : c'.loop.queue.due = c.loop.queue.due) (work : workLeft c' = workLeft c)
      (before : c.loop.place = .drain q) (after : c'.loop.place = .flush q) : Pace c e c'

section Paces

variable {c c' : FlushCall} {e : LoopEvent} {p : Nat}

theorem workLeft_eq (inside : c.loop.place.indque = some p) :
    workLeft c = workAt c.loop.queue p := by
  rw [workLeft, inside]
  rfl

private theorem sendNext_sends {m : QueueState} (h : Ready m) (queue : 1 ≤ p ∧ p ≤ m.countq)
    (filled : 0 < (m.quelist p).total) (given : m.due = []) :
    ∃ i point trail, sendNext p m = dispatch p i ((m.logCopy p i none).onDisk point trail) := by
  have idle : (m.quelist ACT).msg = [] := by
    have perm := h.flight.due
    rw [given] at perm
    exact List.map_eq_nil_iff.mp perm.symm.eq_nil
  have send : (m.quelist p).send = 0 := by
    rw [h.flight.send queue.1 queue.2, inFlight, idle]
    rfl
  have conf : (m.quelist p).conf = 0 := by
    rw [h.flight.conf queue.1 queue.2, accepted, idle]
    rfl
  have may : mayTransmit m p winsize := by
    unfold mayTransmit
    rw [send, conf]
    exact ⟨by decide, filled, rfl⟩
  obtain ⟨elem, head⟩ : ∃ elem, (m.quelist p).msg[0]? = some elem := by
    have within : 0 < (m.quelist p).msg.length := Int.natCast_pos.mp filled
    exact ⟨_, List.getElem?_eq_getElem within⟩
  have file : getFilename m p = some elem.inode := by
    rw [getFilename, send, Int.toNat_zero, head]
    rfl
  have result : sendNext p m = sendFile p elem.inode m := by
    simp only [sendNext, if_pos may, file]
  have alive := h.sendNext_alive queue
  rw [result] at alive ⊢
  obtain ⟨point, trail, _, written⟩ := sendFile_alive h.spool queue.1 alive
  exact ⟨elem.inode, point, trail, written⟩

theorem callStep_pace (h : Swept c p) (inside : c.loop.place.indque = some p)
    (answers : Lifted Answers c.loop e) (happens : callStep c e = some c') : Pace c e c' := by
  have next := callStep_underway h inside answers happens
  obtain ⟨t, step, rfl⟩ := Option.map_eq_some_iff.mp happens
  have alive := h.ready.alive
  have ready {r : Nat} (place : t.place.indque = some r) : Ready t.queue := by
    rcases next with ⟨_, _, swept⟩ | ⟨returned, _⟩
    · exact swept.ready
    · have returned' : t.place = .signals := returned
      rw [returned'] at place
      cases place
  cases call_moves inside step with
  | arrives i _ =>
    refine .waits rfl ?_ rfl ⟨fun same => (by cases same), fun same => (by cases same),
      fun _ _ same => by cases same⟩
    have lists : waiting (dropFile i c.loop.queue) p = waiting c.loop.queue p :=
      waiting_congr fun _ _ _ => rfl
    rw [workLeft_eq inside]
    show c.loop.place.indque.elim 0 (workAt (dropFile i c.loop.queue)) = _
    rw [inside, Option.elim_some, workAt, lists]
    rfl
  | passes usec =>
    exact .waits rfl rfl rfl ⟨fun same => (by cases same), fun same => (by cases same),
      fun _ _ same => by cases same⟩
  | @sends q place filled =>
    obtain rfl : p = q + 1 := flush_place inside place
    have queue : 1 ≤ q + 1 ∧ q + 1 ≤ c.loop.queue.countq := ⟨Nat.le_add_left _ _, h.range⟩
    have works {i : Ino} {point : Point} {trail : List Point}
        (sent : sendNext (q + 1) c.loop.queue =
          dispatch (q + 1) i ((c.loop.queue.logCopy (q + 1) i none).onDisk point trail)) :
        workAt (sendNext (q + 1) c.loop.queue) (q + 1) < workAt c.loop.queue (q + 1) := by
      have after : Ready (sendNext (q + 1) c.loop.queue) := ready rfl
      exact work_sent after.flight after.synced queue.1 sent
    by_cases given : c.loop.queue.due = []
    · obtain ⟨i, point, trail, sent⟩ := sendNext_sends h.ready queue filled given
      refine .works ?_
      rw [workLeft_eq inside]
      exact works sent
    · rcases sendNext_cases (q + 1) c.loop.queue with same | ⟨i, _, _, result⟩
      · refine .spins rfl ?_ ?_ given
        · exact congrArg QueueState.due same
        · rw [workLeft_eq inside]
          exact congrArg (workAt · (q + 1)) same
      · have living := h.ready.sendNext_alive queue
        rw [result] at living
        obtain ⟨point, trail, _, written⟩ := sendFile_alive h.ready.spool queue.1 living
        refine .works ?_
        rw [workLeft_eq inside]
        exact works (result.trans written)
  | @descends q place empty =>
    obtain rfl : p = q + 1 := flush_place inside place
    refine .works ?_
    rw [workLeft_eq inside]
    exact work_descends h.ready.flight empty
  | returns => exact .returns rfl
  | @answers q i code place =>
    have owes := answers (.response i code (getmonotime c.loop.clock)) rfl
    have answered := queueStep_response alive i code (getmonotime c.loop.clock)
    have survives : Ready (loopResponse i code c.loop).queue := ready inside
    have outcome := queueStep_outcome h.ready.spool h.ready.synced answered survives.alive
    refine .works ?_
    rw [workLeft_eq inside]
    refine lt_of_eq_of_lt (workLeft_eq inside) ?_
    exact work_answered h.ready.flight h.ready.synced h.low owes outcome
  | @ends q place =>
    refine .ends rfl rfl ?_ place rfl
    rw [workLeft, workLeft, place]
    rfl

end Paces

/-- A call that runs on: the sender answers what it was given, first with 1 and then once
more, and nothing else, and the process gets its turns. -/
structure Served (tr : Nat → FlushCall) (ev : Nat → LoopEvent) : Prop where
  behaves : Behaves callStep FlushCall.ended tr ev
  answers : ∀ k, ¬ (tr k).ended → Lifted Answers (tr k).loop (ev k)
  answered : ∀ k i b, (i, b) ∈ (tr k).loop.queue.due →
    ∃ l, k ≤ l ∧ ((tr l).ended ∨ ∃ code, ev l = .response i code ∧ decide (code ≠ 1) = b)
  turns : ∀ k, ∃ l, k ≤ l ∧ ((tr l).ended ∨ ev l = .turn ∨ ev l = .next)

section Liveness

variable {tr : Nat → FlushCall} {ev : Nat → LoopEvent}

theorem Served.underway (h : Served tr ev) (start : Underway (tr 0)) (k : Nat) :
    Underway (tr k) := by
  refine h.behaves.invariant (C := fun c e => Lifted Answers c.loop e) ?_ start h.answers k
  intro c e c' underway running answers happens
  rcases underway with ⟨p, inside, swept⟩ | ⟨returned, _⟩
  · exact callStep_underway swept inside answers happens
  · exact absurd (.inr returned) running

private theorem Served.pace (h : Served tr ev) (start : Underway (tr 0)) {k : Nat}
    (running : ¬ (tr k).ended) : Pace (tr k) (ev k) (tr (k + 1)) := by
  rcases h.underway start k with ⟨p, inside, swept⟩ | ⟨returned, _⟩
  · exact callStep_pace swept inside (h.answers k running) (h.behaves.moves k running)
  · exact absurd (.inr returned) running

private def Nearer (n : Nat) (c : FlushCall) : Prop := c.ended ∨ workLeft c < n

/-- One stage: the work left stays the same until something happens to it. -/
private structure Stage (n : Nat) (P : FlushCall → Prop) (c : FlushCall) : Prop where
  running : ¬ c.ended
  same : workLeft c = n
  holds : P c

variable {n : Nat} {P : FlushCall → Prop}

private theorem stage_next {c c' : FlushCall} (h : Stage n P c) (work : workLeft c' = workLeft c)
    (holds : P c') : Stage n P c' ∨ Nearer n c' := by
  by_cases ended : c'.ended
  · exact .inr (.inl ended)
  · exact .inl ⟨ended, work.trans h.same, holds⟩

private theorem nearer_of_less {c c' : FlushCall} (h : Stage n P c)
    (less : workLeft c' < workLeft c) : Nearer n c' :=
  .inr (h.same ▸ less)

private theorem answer_nearer (h : Served tr ev) (start : Underway (tr 0)) (n : Nat) (i : Ino)
    (b : Bool) :
    LeadsTo tr (Stage n fun c => (i, b) ∈ c.loop.queue.due) (Nearer n) := by
  refine leadsTo_of_helpful ev
    (H := fun e => ∃ code, e = .response i code ∧ decide (code ≠ 1) = b) ?_ ?_ ?_
  · intro k stage
    cases h.pace start stage.running with
    | returns place => exact .inr (.inl (.inr place))
    | works less => exact .inr (nearer_of_less stage less)
    | waits due work _ _ => exact stage_next stage work (due ▸ stage.holds)
    | spins _ due work _ => exact stage_next stage work (due ▸ stage.holds)
    | ends _ due work _ _ => exact stage_next stage work (due ▸ stage.holds)
  · rintro k stage ⟨code, event, _⟩
    cases h.pace start stage.running with
    | returns place => exact .inl (.inr place)
    | works less => exact nearer_of_less stage less
    | waits _ _ _ other => exact absurd event (other.2.2 i code)
    | spins turn =>
      rw [event] at turn
      cases turn
    | ends next =>
      rw [event] at next
      cases next
  · intro k stage
    obtain ⟨l, later, ended | helps⟩ := h.answered k i b stage.holds
    · exact ⟨l, later, .inl (.inl ended)⟩
    · exact ⟨l, later, .inr helps⟩

private theorem flush_nearer (h : Served tr ev) (start : Underway (tr 0)) (n : Nat) :
    LeadsTo tr (Stage n fun c => c.loop.queue.due = [] ∧ ∃ q, c.loop.place = .flush q)
      (Nearer n) := by
  refine leadsTo_of_helpful ev (H := fun e => e = .turn ∨ e = .next) ?_ ?_ ?_
  · intro k stage
    obtain ⟨given, q, place⟩ := stage.holds
    cases h.pace start stage.running with
    | returns returned => exact .inr (.inl (.inr returned))
    | works less => exact .inr (nearer_of_less stage less)
    | waits due work same _ =>
      exact stage_next stage work ⟨due.trans given, q, same.trans place⟩
    | spins _ _ _ owing => exact absurd given owing
    | ends _ _ _ before _ =>
      rw [place] at before
      cases before
  · intro k stage turn
    obtain ⟨given, q, place⟩ := stage.holds
    cases h.pace start stage.running with
    | returns returned => exact .inl (.inr returned)
    | works less => exact nearer_of_less stage less
    | waits _ _ _ other =>
      rcases turn with same | same
      · exact absurd same other.1
      · exact absurd same other.2.1
    | spins _ _ _ owing => exact absurd given owing
    | ends _ _ _ before _ =>
      rw [place] at before
      cases before
  · intro k _
    obtain ⟨l, later, ended | turn⟩ := h.turns k
    · exact ⟨l, later, .inl (.inl ended)⟩
    · exact ⟨l, later, .inr turn⟩

private theorem drain_nearer (h : Served tr ev) (start : Underway (tr 0)) (n : Nat) :
    LeadsTo tr (Stage n fun c => c.loop.queue.due = [] ∧ ∃ q, c.loop.place = .drain q)
      fun c => Nearer n c ∨
        Stage n (fun c => c.loop.queue.due = [] ∧ ∃ q, c.loop.place = .flush q) c := by
  refine leadsTo_of_helpful ev (H := fun e => e = .turn ∨ e = .next) ?_ ?_ ?_
  · intro k stage
    obtain ⟨given, q, place⟩ := stage.holds
    cases h.pace start stage.running with
    | returns returned => exact .inr (.inl (.inl (.inr returned)))
    | works less => exact .inr (.inl (nearer_of_less stage less))
    | waits due work same _ =>
      rcases stage_next stage work ⟨due.trans given, q, same.trans place⟩ with still | nearer
      · exact .inl still
      · exact .inr (.inl nearer)
    | spins _ _ _ owing => exact absurd given owing
    | ends _ due work _ after =>
      by_cases ended : (tr (k + 1)).ended
      · exact .inr (.inl (.inl ended))
      · exact .inr (.inr ⟨ended, work.trans stage.same, due.trans given, _, after⟩)
  · intro k stage turn
    obtain ⟨given, q, place⟩ := stage.holds
    cases h.pace start stage.running with
    | returns returned => exact .inl (.inl (.inr returned))
    | works less => exact .inl (nearer_of_less stage less)
    | waits _ _ _ other =>
      rcases turn with same | same
      · exact absurd same other.1
      · exact absurd same other.2.1
    | spins _ _ _ owing => exact absurd given owing
    | ends _ due work _ after =>
      by_cases ended : (tr (k + 1)).ended
      · exact .inl (.inl ended)
      · exact .inr ⟨ended, work.trans stage.same, due.trans given, _, after⟩
  · intro k _
    obtain ⟨l, later, ended | turn⟩ := h.turns k
    · exact ⟨l, later, .inl (.inl (.inl ended))⟩
    · exact ⟨l, later, .inr turn⟩

theorem Served.ends (h : Served tr ev) (start : Underway (tr 0)) : ∃ k, (tr k).ended := by
  have reaches : ∃ k, 0 ≤ k ∧ (tr k).ended := by
    refine reaches_of_measure workLeft (fun n k work => ?_) 0
    by_cases ended : (tr k).ended
    · exact ⟨k, Nat.le_refl k, .inl ended⟩
    · cases due : (tr k).loop.queue.due with
      | cons d _ =>
        have member : d ∈ (tr k).loop.queue.due := due ▸ List.mem_cons_self
        exact answer_nearer h start n d.1 d.2 k ⟨ended, work, member⟩
      | nil =>
        rcases h.underway start k with ⟨p, inside, _⟩ | ⟨returned, _⟩
        · cases place : (tr k).loop.place with
          | flush q => exact flush_nearer h start n k ⟨ended, work, due, q, place⟩
          | drain q =>
            exact (drain_nearer h start n).trans (flush_nearer h start n) k
              ⟨ended, work, due, q, place⟩
          | _ =>
            rw [place] at inside
            cases inside
        · exact absurd (.inr returned) ended
  obtain ⟨k, _, ended⟩ := reaches
  exact ⟨k, ended⟩

theorem Served.flushed (h : Served tr ev) (start : Underway (tr 0)) : ∃ k, Flushed (tr k) := by
  obtain ⟨k, ended⟩ := h.ends start
  refine ⟨k, ?_⟩
  rcases h.underway start k with ⟨p, inside, swept⟩ | ⟨returned, swept⟩
  · rcases ended with exited | returned
    · rw [swept.ready.alive] at exited
      cases exited
    · rw [returned] at inside
      cases inside
  · exact swept.flushed returned

end Liveness

/-- A message that can neither be sent nor go: `flush_queue` does not come below its queue. -/
structure Stuck (s : LoopState) (q : Nat) (i : Ino) : Prop where
  low : 1 ≤ q
  here : i ∈ (s.queue.quelist q).inodes
  blocked : i.toNat < 2 ^ 63 → Has s.queue.disk.fs .act i ∧ i ∉ (s.queue.quelist ACT).inodes
  place : ∃ p, s.place.indque = some p ∧ q ≤ p ∧ p ≤ s.queue.countq

section Blockade

variable {s t : LoopState} {e : LoopEvent} {q : Nat} {i : Ino}

private theorem Stuck.keep (h : Stuck s q i) (here : i ∈ (t.queue.quelist q).inodes)
    (active : Has s.queue.disk.fs .act i → Has t.queue.disk.fs .act i)
    (idle : i ∉ (s.queue.quelist ACT).inodes → i ∉ (t.queue.quelist ACT).inodes)
    (place : t.place.indque = s.place.indque) (countq : t.queue.countq = s.queue.countq) :
    Stuck t q i := by
  refine ⟨h.low, here, ?_, ?_⟩
  · intro small
    obtain ⟨linked, quiet⟩ := h.blocked small
    exact ⟨active linked, idle quiet⟩
  · rw [place, countq]
    exact h.place

private theorem stuck_answered {m : QueueState} {j : Ino} {code : Int} {now : Timeval}
    (h : Stuck s q i) (synced : Synced s.queue)
    (small : j ∈ (s.queue.quelist ACT).inodes → code ≠ 1 → j.toNat < 2 ^ 63)
    (queue : t.queue = m) (place : t.place.indque = s.place.indque)
    (outcome : Outcome s.queue (.response j code now) m) : Stuck t q i := by
  have other {elem : Msg} (member : elem ∈ (s.queue.quelist ACT).msg)
      (small : elem.inode.toNat < 2 ^ 63) : i ≠ elem.inode := by
    rintro rfl
    exact (h.blocked small).2 (List.mem_map_of_mem member)
  have countq := outcome_countq outcome
  rw [← queue] at countq
  cases outcome with
  | idle silent => exact absurd rfl (silent j code now)
  | sent _ _ _ _ cause =>
    rcases cause with ⟨impossible, _⟩ | impossible
    · cases impossible
    · cases impossible
  | stray =>
    refine h.keep ?_ ?_ ?_ place countq
    · rw [queue]
      exact h.here
    · rw [queue]
      exact id
    · rw [queue]
      exact id
  | @confirmed elem _ member =>
    have low := (synced.active elem member).1
    refine h.keep ?_ ?_ ?_ place countq
    · rw [queue]
      by_cases same : q = elem.state
      · rw [same, put_same]
        exact same ▸ h.here
      · rw [put_other _ _ same]
        exact h.here
    · rw [queue]
      exact id
    · rw [queue, put_other _ _ (Ne.symm (queue_ne_act low))]
      exact id
  | @settled elem _ _ _ _ _ member final links _ =>
    have low := (synced.active elem member).1
    have apart := other member (small (List.mem_map_of_mem member) final)
    refine h.keep ?_ ?_ ?_ place countq
    · rw [queue, settle_queue _ _ (queue_ne_act h.low)]
      split
      · rename_i same
        exact mem_elemDel (l := s.queue.quelist elem.state) (same ▸ h.here) apart
      · exact h.here
    · rw [queue]
      intro linked
      exact (links.links _ _).mpr (.inl ⟨linked, fun both => apart both.1⟩)
    · rw [queue, settle_act _ _ (queue_ne_act low), elemDel_inodes]
      exact fun idle member => idle (List.mem_of_mem_erase member)
  | @requeued elem _ _ _ _ member _ final _ links =>
    have low := (synced.active elem member).1
    have apart := other member (small (List.mem_map_of_mem member) final)
    refine h.keep ?_ ?_ ?_ place countq
    · rw [queue, requeue_queue _ _ _ (queue_ne_act h.low)]
      split
      · rename_i same
        exact mem_elemDel (l := s.queue.quelist elem.state) (same ▸ h.here) apart
      · split
        · rw [elemAdd_inodes]
          exact List.mem_append_left _ h.here
        · exact h.here
    · rw [queue]
      intro linked
      exact (links.links _ _).mpr (.inl ⟨linked, fun both => apart both.1⟩)
    · rw [queue, requeue_act _ _ _ (queue_ne_act low), elemDel_inodes]
      exact fun idle member => idle (List.mem_of_mem_erase member)

private theorem loopStep_stuck (h : Stuck s q i) (tracked : Tracked s.queue)
    (answers : Lifted Answers s e) (happens : loopStep s e = some t)
    (alive : t.queue.exited = false) : Tracked t.queue ∧ Stuck t q i := by
  obtain ⟨p, inside, above, range⟩ := h.place
  have living := loopStep_living happens
  have spool := tracked.conserved.recorded.now.spool
  have synced := tracked.conserved.synced living
  cases call_moves inside happens with
  | arrives j fresh =>
    have arrived := queueStep_arrive living fresh
    refine ⟨queueStep_tracked (e := .arrive j) tracked trivial arrived, ?_⟩
    exact h.keep h.here (fun linked => List.mem_append_left _ linked) id rfl rfl
  | passes => exact ⟨tracked, h.keep h.here id id rfl rfl⟩
  | @sends r place _ =>
    obtain rfl : p = r + 1 := flush_place inside place
    have queue : 1 ≤ r + 1 ∧ r + 1 ≤ s.queue.countq := ⟨Nat.le_add_left _ _, range⟩
    have sent := queueStep_flushSend living queue
    refine ⟨queueStep_tracked (e := .flushSend (r + 1)) tracked trivial sent, ?_⟩
    rcases sendNext_cases (r + 1) s.queue with same | ⟨j, _, _, result⟩
    · refine h.keep ?_ ?_ ?_ inside.symm (congrArg QueueState.countq same)
      · simp only [same]
        exact h.here
      · simp only [same]
        exact id
      · simp only [same]
        exact id
    · have living' : (sendFile (r + 1) j s.queue).exited = false := result ▸ alive
      have small := sendFile_small spool living'
      obtain ⟨point, trail, links, written⟩ := sendFile_alive spool queue.1 living'
      have apart : i ≠ j := by
        rintro rfl
        exact links.idle (h.blocked small).1
      have dispatched := result.trans written
      have countq : (sendNext (r + 1) s.queue).countq = s.queue.countq := by
        rw [dispatched]
        rfl
      refine h.keep ?_ ?_ ?_ inside.symm countq
      · simp only [dispatched]
        rw [dispatch_inodes _ _ (queue_ne_act h.low)]
        exact h.here
      · simp only [dispatched]
        intro linked
        exact (links.links _ _).mpr (.inl linked)
      · simp only [dispatched]
        rw [dispatch_act _ _ (queue_ne_act queue.1), elemAdd_inodes]
        intro idle member
        rcases List.mem_append.mp member with old | new
        · exact idle old
        · exact apart (List.mem_singleton.mp new)
  | @descends r place empty =>
    obtain rfl : p = r + 1 := flush_place inside place
    have below : q ≠ r + 1 := by
      rintro rfl
      have here := h.here
      rw [Msglist.inodes_of_empty empty] at here
      cases here
    exact ⟨tracked, h.low, h.here, h.blocked, r, rfl, by omega, Nat.le_of_succ_le range⟩
  | returns place =>
    have last : p = 0 := flush_place inside place
    have low := h.low
    omega
  | @answers r j code place =>
    have answered := queueStep_response living j code (getmonotime s.clock)
    have owes := answers (.response j code (getmonotime s.clock)) rfl
    have outcome := queueStep_outcome spool synced answered alive
    refine ⟨queueStep_tracked tracked owes answered, ?_⟩
    refine stuck_answered h synced ?_ rfl rfl outcome
    intro flying final
    exact answer_small (m := s.queue.answer j code) spool flying final alive
  | @ends r place =>
    refine ⟨tracked, h.keep h.here id id ?_ rfl⟩
    rw [place]
    rfl

end Blockade

section Runs

variable {s : LoopState} {tr : Nat → FlushCall} {ev : Nat → LoopEvent} {q : Nat} {i : Ino}

private theorem stuck_of_blocked (entry : Entry s) (blocked : ¬ Sendable s.queue) :
    ∃ q i, Stuck s q i := by
  unfold Sendable at blocked
  push Not at blocked
  obtain ⟨q, i, low, high, here, barred⟩ := blocked
  refine ⟨q, i, low, here, ?_, s.queue.countq, ?_, high, Nat.le_refl _⟩
  · intro small
    obtain ⟨idle, linked⟩ := barred small
    exact ⟨linked, idle⟩
  · rw [entry.place]
    rfl

private theorem Served.stuck (h : Served tr ev) (tracked : Tracked (tr 0).loop.queue)
    (stuck : Stuck (tr 0).loop q i) (k : Nat) :
    (tr k).loop.queue.exited = true ∨ Tracked (tr k).loop.queue ∧ Stuck (tr k).loop q i := by
  refine h.behaves.invariant (C := fun c e => Lifted Answers c.loop e)
    (I := fun c => c.loop.queue.exited = true ∨ Tracked c.loop.queue ∧ Stuck c.loop q i) ?_
    (.inr ⟨tracked, stuck⟩) h.answers k
  intro c e c' invariant running answers happens
  obtain ⟨t, step, rfl⟩ := Option.map_eq_some_iff.mp happens
  rcases invariant with exited | ⟨tracked, stuck⟩
  · exact absurd (.inl exited) running
  · by_cases exited : t.queue.exited = true
    · exact .inl exited
    · right
      exact loopStep_stuck stuck tracked answers step (Bool.eq_false_iff.mpr exited)

/-- In every behaviour of a call, from any state with lists and counters in order, in which
the sender answers what it was given: the call returns with its work done if and only if
nothing is in the way of a message. -/
theorem flush_returns_iff (entry : Entry s) (start : tr 0 = FlushCall.start s)
    (served : Served tr ev) : (∃ k, Flushed (tr k)) ↔ Sendable s.queue := by
  have loop : (tr 0).loop = s := by
    rw [start]
    rfl
  constructor
  · rintro ⟨k, flushed⟩
    by_contra blocked
    obtain ⟨q, i, stuck⟩ := stuck_of_blocked entry blocked
    obtain ⟨alive, returned⟩ := flushed.returned
    rcases served.stuck (loop ▸ entry.tracked) (loop ▸ stuck) k with exited | ⟨_, above⟩
    · rw [alive] at exited
      cases exited
    · obtain ⟨p, inside, _⟩ := above.place
      rw [returned] at inside
      cases inside
  · intro sendable
    refine served.flushed ?_
    rw [start]
    refine .inl ⟨s.queue.countq, ?_, entry.swept sendable⟩
    show s.place.indque = _
    rw [entry.place]
    rfl

end Runs

section Scenarios

/-- A daemon started on these directories, in its first `flush_queue`. -/
def flushing (fs : Fs) (restored : Nat → List Msg) : LoopState :=
  { restart fs 1 (fun _ => 60) restored 0 with
    place := .flush 2
    isconnect := true
    trigfd := true
    pipefd := true }

/-- The event is the answer that is due. -/
def settles (d : Ino × Bool) : LoopEvent → Bool
  | .response i code => i = d.1 && decide (code ≠ 1) = d.2
  | _ => false

private theorem served_of_run {c d : FlushCall} {es : List LoopEvent}
    (reached : run callStep c es = some d) (ends : d.ended)
    (within : Guarded callStep (fun c e => ¬ c.ended ∧ Lifted Answers c.loop e) c es)
    (answered : ∀ k < es.length,
      (trace callStep c es k).loop.queue.due.all fun d => (es.drop k).any (settles d)) :
    Served (trace callStep c es) fun k => es.getD k .turn := by
  have late {k : Nat} (past : es.length ≤ k) : (trace callStep c es k).ended := by
    rw [trace_end reached past]
    exact ends
  refine ⟨?_, ?_, ?_, ?_⟩
  · refine behaves_of_run reached ends ?_ .turn
    exact guarded_imp (fun _ _ both => both.1) within
  · intro k running
    by_cases early : k < es.length
    · exact (trace_meets within reached .turn early).2
    · exact absurd (late (Nat.le_of_not_lt early)) running
  · intro k i b owes
    by_cases early : k < es.length
    · have given := List.all_eq_true.mp (answered k early) (i, b) owes
      obtain ⟨e, member, answer⟩ := List.any_eq_true.mp given
      obtain ⟨n, there⟩ := List.mem_iff_getElem?.mp member
      rw [List.getElem?_drop] at there
      refine ⟨k + n, Nat.le_add_right k n, .inr ?_⟩
      rw [List.getD_eq_getElem?_getD, there, Option.getD_some]
      cases e with
      | response j code =>
        obtain ⟨rfl, kind⟩ : j = i ∧ decide (code ≠ 1) = b := by simpa [settles] using answer
        exact ⟨code, rfl, kind⟩
      | _ => cases answer
    · exact ⟨k, Nat.le_refl k, .inl (late (Nat.le_of_not_lt early))⟩
  · intro k
    exact ⟨max k es.length, Nat.le_max_left _ _, .inl (late (Nat.le_max_right _ _))⟩

private theorem flushing_entry {fs : Fs} {restored : Nat → List Msg} (spool : Spool fs)
    (lists : Restores fs 1 restored) : Entry (flushing fs restored) :=
  ⟨initqueue_tracked spool lists, rfl, rfl⟩

private theorem spool_of_links {fs : Fs} (keyed : (fs.map fun l => (l.dir, l.name)).Nodup)
    (named : ∀ l ∈ fs, l.name = l.file.toNat)
    (once : ∀ l ∈ fs, ∀ r ∈ fs, l.file = r.file → l.dir ≠ .act → r.dir ≠ .act → l.dir = r.dir) :
    Spool fs :=
  ⟨keyed, named, fun first second => once _ first _ second rfl⟩

/-- Message 5 waits in `in`, message 6 in the deferred queue. -/
def bothLeft : Fs := [⟨.que 1, 5, 5⟩, ⟨.que 2, 6, 6⟩]

def restoredBoth (q : Nat) : List Msg :=
  if q = IN then [⟨5, ⟨0, 0⟩, IN⟩] else if q = 2 then [⟨6, ⟨0, 0⟩, 2⟩] else []

def bothFlushed : List LoopEvent :=
  [.turn, .response 6 1, .response 6 0, .next, .turn, .turn, .response 5 1, .response 5 2, .next,
    .turn, .turn]

set_option maxRecDepth 4000

theorem flush_returns_both :
    Sendable (flushing bothLeft restoredBoth).queue ∧
      ∃ tr ev, tr 0 = FlushCall.start (flushing bothLeft restoredBoth) ∧ Served tr ev ∧
        ∃ k, Flushed (tr k) := by
  have lists : Restores bothLeft 1 restoredBoth := restores_two (by decide) (by decide)
  have spool : Spool bothLeft := spool_of_links (by decide) (by decide) (by decide)
  have reached : run callStep (FlushCall.start (flushing bothLeft restoredBoth)) bothFlushed =
      some _ := rfl
  have served := served_of_run reached (.inr rfl) (by decide) (by decide)
  have sendable : Sendable (flushing bothLeft restoredBoth).queue := by
    intro q i low high listed
    have range : q = 1 ∨ q = 2 := by
      have high' : q ≤ 2 := high
      omega
    rcases range with rfl | rfl
    · obtain rfl := List.mem_singleton.mp listed
      decide
    · obtain rfl := List.mem_singleton.mp listed
      decide
  refine ⟨sendable, _, _, rfl, served, ?_⟩
  exact (flush_returns_iff (flushing_entry spool lists) rfl served).mpr sendable

/-- The start on `inFlightLeft` comes to a call that ends the process at its first turn. -/
theorem flush_blocked :
    run loopStep (restart inFlightLeft 1 (fun _ => 60) restoredLeft 0) (reconnect.take 6) =
      some (flushing inFlightLeft restoredLeft) ∧
    Entry (flushing inFlightLeft restoredLeft) ∧
    ∃ tr ev, tr 0 = FlushCall.start (flushing inFlightLeft restoredLeft) ∧ Served tr ev ∧
      ¬ ∃ k, Flushed (tr k) := by
  have lists : Restores inFlightLeft 1 restoredLeft := restores_two (by decide) (by decide)
  have spool : Spool inFlightLeft := spool_of_links (by decide) (by decide) (by decide)
  have reached :
      run callStep (FlushCall.start (flushing inFlightLeft restoredLeft)) [.turn, .turn] =
        some _ := rfl
  have served := served_of_run reached (.inl rfl) (by decide) (by decide)
  refine ⟨rfl, flushing_entry spool lists, _, _, rfl, served, ?_⟩
  rintro ⟨k, flushed⟩
  obtain ⟨alive, returned⟩ := flushed.returned
  match k with
  | 0 => cases returned
  | 1 => cases returned
  | k + 2 =>
    rw [trace_end reached (Nat.le_add_left 2 k)] at alive
    cases alive

end Scenarios

end IecUtils.Queue.FlushReturn
