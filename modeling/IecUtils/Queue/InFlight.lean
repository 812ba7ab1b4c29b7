/- Module: IecUtils/Queue/InFlight
   source: quemngr/quemngr.c, scripts/asdusend
   digest: The counters of each queue count the messages in flight and those the sender confirmed. -/

import IecUtils.Queue.Conservation

set_option autoImplicit false
set_option relaxedAutoImplicit false

namespace IecUtils.Queue.InFlight

open IecUtils.Foundation.LinkTable
open IecUtils.Foundation.Transition
open IecUtils.Queue.Files
open IecUtils.Queue.Heap
open IecUtils.Queue.Control
open IecUtils.Queue.Manager
open IecUtils.Queue.Effects
open IecUtils.Queue.Conservation

/-- asdusend answers each file name it was given first with 1 and then once more. -/
def Answers (m : QueueState) : QueueEvent → Prop
  | .response i code _ => (i, decide (code ≠ 1)) ∈ m.due
  | _ => True

instance (m : QueueState) (e : QueueEvent) : Decidable (Answers m e) :=
  match e with
  | .response i code _ => inferInstanceAs (Decidable ((i, decide (code ≠ 1)) ∈ m.due))
  | .arrive _ => isTrue trivial
  | .signal _ => isTrue trivial
  | .scan _ _ => isTrue trivial
  | .sendIn => isTrue trivial
  | .flushSend _ => isTrue trivial
  | .expire => isTrue trivial

def inFlight (m : QueueState) (q : Nat) : Nat :=
  (m.quelist ACT).msg.countP fun e => e.state = q

def accepted (m : QueueState) (q : Nat) : Nat :=
  (m.quelist ACT).msg.countP fun e => e.state = q ∧ (e.inode, true) ∈ m.due

def windowOf (q : Nat) : Int := if q = IN then winsize else windefsize

/-- The ACT list, the sender and the counters tell the same story. -/
structure Flight (m : QueueState) : Prop where
  listed : ∀ e ∈ (m.quelist ACT).msg, e.inode ∈ (m.quelist e.state).inodes
  linked : ∀ i ∈ (m.quelist ACT).inodes, Has m.disk.fs .act i
  nodup : (m.quelist ACT).inodes.Nodup
  due : (m.due.map Prod.fst).Perm (m.quelist ACT).inodes
  send : ∀ {q}, 1 ≤ q → q ≤ m.countq → (m.quelist q).send = inFlight m q
  conf : ∀ {q}, 1 ≤ q → q ≤ m.countq → (m.quelist q).conf = accepted m q
  window : ∀ {q}, 1 ≤ q → q ≤ m.countq → (m.quelist q).send ≤ windowOf q

section Sender

variable {m : QueueState} {i j : Ino} {due : List (Ino × Bool)}

private theorem mem_due_inj {b c : Bool} (nodup : (due.map Prod.fst).Nodup)
    (first : (i, b) ∈ due) (second : (i, c) ∈ due) : b = c := by
  have same := List.inj_on_of_nodup_map nodup first second rfl
  exact congrArg Prod.snd same

private theorem answered_map (code : Int) (member : (i, decide (code ≠ 1)) ∈ due) :
    ((answered due i code).map Prod.fst).Perm
      (if code = 1 then due.map Prod.fst else (due.map Prod.fst).erase i) := by
  unfold answered
  by_cases first : code = 1
  · rw [if_pos first, if_pos first, List.map_cons]
    rw [decide_eq_false (not_not_intro first)] at member
    exact ((List.perm_cons_erase member).map Prod.fst).symm
  · rw [if_neg first, if_neg first]
    rw [decide_eq_true first] at member
    have perm := (List.perm_cons_erase member).map Prod.fst
    rw [List.map_cons] at perm
    have erased := perm.erase i
    rw [List.erase_cons_head] at erased
    exact erased.symm

private theorem mem_answered_other {code : Int} (apart : j ≠ i) :
    (j, true) ∈ answered due i code ↔ (j, true) ∈ due := by
  have different (b : Bool) : (j, true) ≠ (i, b) := by
    intro same
    exact apart (congrArg Prod.fst same)
  unfold answered
  split
  · rw [List.mem_cons, List.mem_erase_of_ne (different _)]
    exact or_iff_right (different _)
  · rw [List.mem_erase_of_ne (different _)]

end Sender

section Lists

variable {l : List Msg} {elem : Msg}

private theorem countP_change {P Q : Msg → Prop} [DecidablePred P] [DecidablePred Q]
    (nodup : l.Nodup) (member : elem ∈ l)
    (others : ∀ e ∈ l, e ≠ elem → (P e ↔ Q e)) :
    l.countP (fun e => P e) + (if Q elem then 1 else 0) =
      l.countP (fun e => Q e) + (if P elem then 1 else 0) := by
  have perm := List.perm_cons_erase member
  have rest : (l.erase elem).countP (fun e => P e) = (l.erase elem).countP (fun e => Q e) := by
    apply List.countP_congr
    intro e inside
    obtain ⟨apart, present⟩ := nodup.mem_erase_iff.mp inside
    simpa using others e present apart
  rw [perm.countP_eq, perm.countP_eq, List.countP_cons, List.countP_cons, rest]
  simp only [decide_eq_true_eq]
  omega

end Lists

section Steps

variable {m m' : QueueState} {e : QueueEvent}

theorem Flight.entry_unique (h : Flight m) {a b : Msg}
    (first : a ∈ (m.quelist ACT).msg) (second : b ∈ (m.quelist ACT).msg)
    (same : a.inode = b.inode) : a = b :=
  List.inj_on_of_nodup_map h.nodup first second same

private theorem Flight.congr (h : Flight m) (act : m'.quelist ACT = m.quelist ACT)
    (due : m'.due = m.due) (count : m'.countq = m.countq)
    (links : ∀ i ∈ (m.quelist ACT).inodes, Has m.disk.fs .act i → Has m'.disk.fs .act i)
    (grows : ∀ e ∈ (m.quelist ACT).msg, ∀ i ∈ (m.quelist e.state).inodes,
      i ∈ (m'.quelist e.state).inodes)
    (send : ∀ q, 1 ≤ q → (m'.quelist q).send = (m.quelist q).send)
    (conf : ∀ q, 1 ≤ q → (m'.quelist q).conf = (m.quelist q).conf) : Flight m' := by
  have flying (q : Nat) : inFlight m' q = inFlight m q := by
    rw [inFlight, inFlight, act]
  have known (q : Nat) : accepted m' q = accepted m q := by
    rw [accepted, accepted, act, due]
  refine ⟨?_, ?_, ?_, ?_, ?_, ?_, ?_⟩
  · intro e member
    rw [act] at member
    exact grows e member _ (h.listed e member)
  · intro i member
    rw [act] at member
    exact links i member (h.linked i member)
  · rw [act]
    exact h.nodup
  · rw [act, due]
    exact h.due
  · intro q queue range
    rw [send q queue, flying, h.send queue (count ▸ range)]
  · intro q queue range
    rw [conf q queue, known, h.conf queue (count ▸ range)]
  · intro q queue range
    rw [send q queue]
    exact h.window queue (count ▸ range)

private theorem Flight.retimed (h : Flight m) (heap : TimerHeap) :
    Flight { m with timerheap := heap } :=
  ⟨h.listed, h.linked, h.nodup, h.due, h.send, h.conf, h.window⟩

theorem dispatch_inFlight {q r : Nat} {i : Ino} {p : Point} {trail : List Point}
    (queue : 1 ≤ q) : inFlight (dispatch q i ((m.logCopy q i none).onDisk p trail)) r =
      inFlight m r + if q = r then 1 else 0 := by
  have act : (dispatch q i ((m.logCopy q i none).onDisk p trail)).quelist ACT =
      elemAdd (m.quelist ACT) (elemNew i ⟨0, 0⟩ q) := dispatch_act _ _ (queue_ne_act queue)
  rw [inFlight, act, elemAdd, List.countP_append, List.countP_singleton]
  by_cases same : q = r
  · simp [inFlight, elemNew, same]
  · simp [inFlight, elemNew, same]

private theorem dispatch_accepted {q r : Nat} {i : Ino} {p : Point} {trail : List Point}
    (queue : 1 ≤ q) (undue : (i, true) ∉ m.due) :
    accepted (dispatch q i ((m.logCopy q i none).onDisk p trail)) r = accepted m r := by
  have act : (dispatch q i ((m.logCopy q i none).onDisk p trail)).quelist ACT =
      elemAdd (m.quelist ACT) (elemNew i ⟨0, 0⟩ q) := dispatch_act _ _ (queue_ne_act queue)
  have due : (dispatch q i ((m.logCopy q i none).onDisk p trail)).due = m.due ++ [(i, false)] :=
    rfl
  have unknown : ¬ ((elemNew i ⟨0, 0⟩ q).state = r ∧
      ((elemNew i ⟨0, 0⟩ q).inode, true) ∈ m.due ++ [(i, false)]) := by
    simp [elemNew, undue]
  rw [accepted, act, due, elemAdd, List.countP_append, List.countP_singleton]
  rw [decide_eq_false unknown, if_neg Bool.false_ne_true, Nat.add_zero, accepted]
  apply List.countP_congr
  intro elem _
  simp

theorem dispatch_linked {q : Nat} {i : Ino} {p : Point} {trail : List Point} (queue : 1 ≤ q)
    (linked : ∀ j ∈ (m.quelist ACT).inodes, Has m.disk.fs .act j)
    (nodup : (m.quelist ACT).inodes.Nodup) (links : Copied m.disk.fs p.fs q i) :
    (∀ j ∈ ((dispatch q i ((m.logCopy q i none).onDisk p trail)).quelist ACT).inodes,
        Has p.fs .act j) ∧
      ((dispatch q i ((m.logCopy q i none).onDisk p trail)).quelist ACT).inodes.Nodup := by
  have inodes : ((dispatch q i ((m.logCopy q i none).onDisk p trail)).quelist ACT).inodes =
      (m.quelist ACT).inodes ++ [i] := by
    rw [dispatch_act _ _ (queue_ne_act queue), elemAdd_inodes]
    rfl
  rw [inodes]
  constructor
  · intro j member
    rcases List.mem_append.mp member with old | new
    · exact (links.links _ _).mpr (.inl (linked j old))
    · exact (links.links _ _).mpr (.inr ⟨rfl, List.mem_singleton.mp new⟩)
  · refine List.nodup_append.mpr ⟨nodup, List.nodup_singleton _, ?_⟩
    rintro a old b new rfl
    rw [List.mem_singleton.mp new] at old
    exact links.idle (linked i old)

private theorem flight_dispatch {q : Nat} {i : Ino} {p : Point} {trail : List Point}
    (h : Flight m) (synced : Synced m) (queue : 1 ≤ q ∧ q ≤ m.countq)
    (room : (m.quelist q).send < windowOf q) (links : Copied m.disk.fs p.fs q i) :
    Flight (dispatch q i ((m.logCopy q i none).onDisk p trail)) := by
  have act : (dispatch q i ((m.logCopy q i none).onDisk p trail)).quelist ACT =
      elemAdd (m.quelist ACT) (elemNew i ⟨0, 0⟩ q) := dispatch_act _ _ (queue_ne_act queue.1)
  have due : (dispatch q i ((m.logCopy q i none).onDisk p trail)).due = m.due ++ [(i, false)] :=
    rfl
  have lists {r : Nat} (other : 1 ≤ r) :
      (dispatch q i ((m.logCopy q i none).onDisk p trail)).quelist r =
        if r = q then { m.quelist q with send := (m.quelist q).send + 1 } else m.quelist r :=
    dispatch_queue _ _ (queue_ne_act other)
  have absent : i ∉ (m.quelist ACT).inodes := fun member => links.idle (h.linked i member)
  have undue : (i, true) ∉ m.due := by
    intro member
    exact absent (h.due.subset (List.mem_map_of_mem member))
  obtain ⟨linked, nodup⟩ := dispatch_linked queue.1 h.linked h.nodup links
  refine ⟨?_, linked, nodup, ?_, ?_, ?_, ?_⟩
  · intro elem member
    rw [act] at member
    rcases List.mem_append.mp member with old | new
    · rw [dispatch_inodes _ _ (queue_ne_act (synced.active elem old).1)]
      exact h.listed elem old
    · rw [List.mem_singleton.mp new]
      show i ∈ ((dispatch q i ((m.logCopy q i none).onDisk p trail)).quelist q).inodes
      rw [dispatch_inodes _ _ (queue_ne_act queue.1)]
      exact ((synced.agrees queue.1 queue.2).listed i).mpr links.here
  · rw [act, due, elemAdd_inodes, List.map_append]
    exact h.due.append_right _
  · intro r other range
    have before := h.send other range
    rw [lists other, dispatch_inFlight queue.1]
    by_cases same : r = q
    · subst same
      simp only [if_true]
      omega
    · simp only [if_neg same, if_neg (Ne.symm same)]
      omega
  · intro r other range
    have before := h.conf other range
    rw [dispatch_accepted queue.1 undue, ← before, lists other]
    split
    · rename_i equal
      rw [equal]
    · rfl
  · intro r other range
    rw [lists other]
    split
    · rename_i equal
      rw [equal]
      exact room
    · exact h.window other range

theorem one_fewer {q state before now : Nat} {count : Int} (was : count = before)
    (left : before = now + if state = q then 1 else 0) :
    count - (if q = state then 1 else 0) = now := by
  by_cases same : q = state
  · rw [if_pos same]
    rw [if_pos same.symm] at left
    omega
  · rw [if_neg same]
    rw [if_neg (Ne.symm same)] at left
    omega

theorem inFlight_removed {elem : Msg} (nodup : (m.quelist ACT).inodes.Nodup)
    (member : elem ∈ (m.quelist ACT).msg)
    (act : m'.quelist ACT = elemDel (m.quelist ACT) elem.inode) (q : Nat) :
    inFlight m q = inFlight m' q + if elem.state = q then 1 else 0 := by
  rw [inFlight, inFlight, act, (elemDel_perm nodup member).countP_eq, List.countP_cons]
  simp only [decide_eq_true_eq]

/-- The second answer takes one entry out of the ACT list, of its queue's list, of
both counters and of what the sender owes. -/
private theorem flight_final {elem : Msg} {code : Int} {dst : Option Dir} (h : Flight m)
    (synced : Synced m) (member : elem ∈ (m.quelist ACT).msg) (final : code ≠ 1)
    (owed : (elem.inode, true) ∈ m.due)
    (links : Departs m.disk.fs m'.disk.fs elem.state elem.inode dst)
    (act : m'.quelist ACT = elemDel (m.quelist ACT) elem.inode)
    (due : m'.due = answered m.due elem.inode code) (count : m'.countq = m.countq)
    (own : ∀ i ∈ (m.quelist elem.state).inodes, i ≠ elem.inode →
      i ∈ (m'.quelist elem.state).inodes)
    (grows : ∀ q, 1 ≤ q → q ≠ elem.state → ∀ i ∈ (m.quelist q).inodes,
      i ∈ (m'.quelist q).inodes)
    (counts : ∀ q, 1 ≤ q →
      (m'.quelist q).send = (m.quelist q).send - (if q = elem.state then 1 else 0) ∧
        (m'.quelist q).conf = (m.quelist q).conf - (if q = elem.state then 1 else 0)) :
    Flight m' := by
  have perm := elemDel_perm h.nodup member
  have inodes : (m'.quelist ACT).inodes = (m.quelist ACT).inodes.erase elem.inode := by
    rw [act, elemDel_inodes]
  have apart {e : Msg} (inside : e ∈ (m'.quelist ACT).msg) :
      e ∈ (m.quelist ACT).msg ∧ e.inode ≠ elem.inode := by
    have listed : e.inode ∈ (m.quelist ACT).inodes.erase elem.inode := by
      rw [← inodes]
      exact List.mem_map_of_mem inside
    rw [act] at inside
    exact ⟨elemDel_subset _ _ inside, (h.nodup.mem_erase_iff.mp listed).1⟩
  have known (q : Nat) :
      accepted m q = accepted m' q + if elem.state = q then 1 else 0 := by
    have kept : accepted m' q = (elemDel (m.quelist ACT) elem.inode).msg.countP fun e =>
        e.state = q ∧ (e.inode, true) ∈ m.due := by
      rw [accepted, act]
      apply List.countP_congr
      intro e inside
      rw [← act] at inside
      rw [due]
      simp only [decide_eq_true_eq, mem_answered_other (apart inside).2]
    rw [kept, accepted, perm.countP_eq, List.countP_cons]
    simp only [decide_eq_true_eq, owed, and_true]
  refine ⟨?_, ?_, ?_, ?_, ?_, ?_, ?_⟩
  · intro e inside
    obtain ⟨before, other⟩ := apart inside
    have listed := h.listed e before
    by_cases same : e.state = elem.state
    · rw [same] at listed ⊢
      exact own _ listed other
    · exact grows _ (synced.active e before).1 same _ listed
  · intro i inside
    rw [inodes] at inside
    obtain ⟨other, before⟩ := h.nodup.mem_erase_iff.mp inside
    exact (links.links _ _).mpr (.inl ⟨h.linked i before, fun both => other both.1⟩)
  · rw [inodes]
    exact h.nodup.erase _
  · rw [inodes, due]
    have owed' : (elem.inode, decide (code ≠ 1)) ∈ m.due := by
      rw [decide_eq_true final]
      exact owed
    have answers := answered_map code owed'
    rw [if_neg final] at answers
    exact answers.trans (h.due.erase _)
  · intro q queue range
    rw [(counts q queue).1]
    exact one_fewer (h.send queue (count ▸ range)) (inFlight_removed h.nodup member act q)
  · intro q queue range
    rw [(counts q queue).2]
    exact one_fewer (h.conf queue (count ▸ range)) (known q)
  · intro q queue range
    have before := h.window queue (count ▸ range)
    rw [(counts q queue).1]
    split
    · omega
    · omega

private theorem flight_confirmed {elem : Msg} (h : Flight m) (synced : Synced m)
    (member : elem ∈ (m.quelist ACT).msg) (owed : (elem.inode, false) ∈ m.due)
    (disk : m'.disk = m.disk) (act : m'.quelist ACT = m.quelist ACT)
    (due : m'.due = answered m.due elem.inode 1) (count : m'.countq = m.countq)
    (inodes : ∀ q, 1 ≤ q → (m'.quelist q).inodes = (m.quelist q).inodes)
    (counts : ∀ q, 1 ≤ q → (m'.quelist q).send = (m.quelist q).send ∧
      (m'.quelist q).conf = (m.quelist q).conf + (if q = elem.state then 1 else 0)) :
    Flight m' := by
  have nodup : (m.due.map Prod.fst).Nodup := h.due.nodup_iff.mpr h.nodup
  have unknown : (elem.inode, true) ∉ m.due := by
    intro known
    exact Bool.false_ne_true (mem_due_inj nodup owed known)
  have known (q : Nat) :
      accepted m' q = accepted m q + if elem.state = q then 1 else 0 := by
    have change := countP_change (P := fun e => e.state = q ∧ (e.inode, true) ∈ m.due)
      (Q := fun e => e.state = q ∧ (e.inode, true) ∈ answered m.due elem.inode 1)
      (List.Nodup.of_map _ h.nodup) member ?_
    · have now : (elem.inode, true) ∈ answered m.due elem.inode 1 := List.mem_cons_self
      simp only [unknown, now, and_true, and_false, if_false] at change
      rw [accepted, act, due]
      exact change.symm
    · intro e inside apart
      have other : e.inode ≠ elem.inode := fun same => apart (h.entry_unique inside member same)
      rw [mem_answered_other other]
  refine ⟨?_, ?_, ?_, ?_, ?_, ?_, ?_⟩
  · intro e inside
    rw [act] at inside
    rw [inodes _ (synced.active e inside).1]
    exact h.listed e inside
  · intro i inside
    rw [act] at inside
    rw [disk]
    exact h.linked i inside
  · rw [act]
    exact h.nodup
  · rw [act, due]
    exact (answered_map 1 owed).trans h.due
  · intro q queue range
    rw [(counts q queue).1, h.send queue (count ▸ range), inFlight, inFlight, act]
  · intro q queue range
    have before := h.conf queue (count ▸ range)
    rw [(counts q queue).2, known]
    by_cases same : q = elem.state
    · rw [if_pos same, if_pos same.symm]
      omega
    · rw [if_neg same, if_neg (Ne.symm same)]
      omega
  · intro q queue range
    rw [(counts q queue).1]
    exact h.window queue (count ▸ range)

private theorem flight_scanned {added new : List Msg} {p : Point} {trail : List Point}
    (h : Flight m) (links : Accepted m.disk.fs p.fs (added.map Msg.inode))
    (perm : new.Perm ((m.quelist IN).msg ++ added)) :
    Flight ((m.onDisk p trail).put IN { m.quelist IN with msg := new }) := by
  have counters (q : Nat) :
      (((m.onDisk p trail).put IN { m.quelist IN with msg := new }).quelist q).send =
          (m.quelist q).send ∧
        (((m.onDisk p trail).put IN { m.quelist IN with msg := new }).quelist q).conf =
          (m.quelist q).conf := by
    by_cases same : q = IN
    · subst same
      rw [put_same]
      exact ⟨rfl, rfl⟩
    · rw [put_other _ _ same]
      exact ⟨rfl, rfl⟩
  refine h.congr (put_other _ _ (by decide)) rfl rfl ?_ ?_ (fun q _ => (counters q).1)
    fun q _ => (counters q).2
  · intro i _ here
    refine (links.links _ _).mpr (.inl ⟨here, ?_⟩)
    rintro ⟨impossible, _⟩
    cases impossible
  · intro elem _ i inside
    by_cases same : elem.state = IN
    · rw [same] at inside ⊢
      rw [put_same]
      refine (perm.map Msg.inode).mem_iff.mpr ?_
      rw [List.map_append]
      exact List.mem_append_left _ inside
    · rw [put_other _ _ same]
      exact inside

private theorem flight_settled {elem : Msg} {code : Int} {p : Point} {trail : List Point}
    {dst : Option Dir} (h : Flight m) (synced : Synced m) (member : elem ∈ (m.quelist ACT).msg)
    (final : code ≠ 1) (owed : (elem.inode, true) ∈ m.due)
    (links : Departs m.disk.fs p.fs elem.state elem.inode dst) :
    Flight (settle elem.state elem.inode ((m.answer elem.inode code).onDisk p trail)) := by
  have low := (synced.active elem member).1
  refine flight_final h synced member final owed links (settle_act _ _ (queue_ne_act low)) rfl
    rfl ?_ ?_ ?_
  · intro i inside other
    rw [settle_queue _ _ (queue_ne_act low), if_pos rfl]
    exact mem_elemDel (l := m.quelist elem.state) inside other
  · intro q queue apart i inside
    rw [settle_queue _ _ (queue_ne_act queue), if_neg apart]
    exact inside
  · intro q queue
    rw [settle_queue _ _ (queue_ne_act queue)]
    split
    · rename_i same
      rw [same]
      exact ⟨rfl, rfl⟩
    · rw [Int.sub_zero, Int.sub_zero]
      exact ⟨rfl, rfl⟩

private theorem flight_requeued {elem : Msg} {code : Int} {now : Timeval} {p : Point}
    {trail : List Point} {dst : Option Dir} (h : Flight m) (synced : Synced m)
    (member : elem ∈ (m.quelist ACT).msg) (final : code ≠ 1)
    (owed : (elem.inode, true) ∈ m.due)
    (links : Departs m.disk.fs p.fs elem.state elem.inode dst) :
    Flight (requeue elem.state elem.inode now ((m.answer elem.inode code).onDisk p trail)) := by
  have low := (synced.active elem member).1
  refine flight_final h synced member final owed links (requeue_act _ _ _ (queue_ne_act low))
    rfl rfl ?_ ?_ ?_
  · intro i inside other
    rw [requeue_queue _ _ _ (queue_ne_act low), if_pos rfl]
    exact mem_elemDel (l := m.quelist elem.state) inside other
  · intro q queue apart i inside
    rw [requeue_queue _ _ _ (queue_ne_act queue), if_neg apart]
    split
    · rw [elemAdd_inodes]
      exact List.mem_append_left _ inside
    · exact inside
  · intro q queue
    rw [requeue_queue _ _ _ (queue_ne_act queue)]
    split
    · rename_i same
      rw [same]
      exact ⟨rfl, rfl⟩
    · rw [Int.sub_zero, Int.sub_zero]
      split
      · exact ⟨rfl, rfl⟩
      · exact ⟨rfl, rfl⟩

theorem outcome_flight (h : Flight m) (synced : Synced m) (answers : Answers m e)
    (outcome : Outcome m e m') : Flight m' := by
  have due {i : Ino} {code : Int} (owed : (i, decide (code ≠ 1)) ∈ m.due) (final : code ≠ 1) :
      (i, true) ∈ m.due := by
    rw [decide_eq_true final] at owed
    exact owed
  cases outcome with
  | idle => exact h
  | arrived links =>
    refine h.congr rfl rfl rfl ?_ (fun _ _ _ inside => inside) (fun _ _ => rfl) fun _ _ => rfl
    intro i _ here
    exact (links _ _).mpr (.inl here)
  | scanned links perm => exact flight_scanned h links perm
  | sent queue may _ links =>
    refine flight_dispatch h synced queue ?_ links
    have room : _ < winsize := may.1
    unfold windowOf
    split
    · exact room
    · exact Int.lt_trans room (by decide)
  | expired => exact h.retimed _
  | @fired node p trail min may links =>
    obtain ⟨low, range⟩ := synced.timers node (List.mem_of_getElem? min)
    have deferred : windowOf node.indque = windefsize := by
      have apart : node.indque ≠ IN := by
        unfold IN
        omega
      rw [windowOf, if_neg apart]
    have sent : Flight (dispatch node.indque (definode node.inode)
        ((m.logCopy node.indque (definode node.inode) none).onDisk p trail)) :=
      flight_dispatch h synced ⟨by omega, range⟩ (deferred ▸ may.1) links
    exact sent.retimed _
  | stray missing =>
    have owed := h.due.subset (List.mem_map_of_mem (f := Prod.fst) answers)
    exact absurd owed missing
  | @confirmed elem _ member =>
    have low := (synced.active elem member).1
    refine flight_confirmed h synced member answers rfl
      (put_other _ _ (Ne.symm (queue_ne_act low))) rfl rfl ?_ ?_
    · intro q _
      by_cases same : q = elem.state
      · subst same
        rw [put_same]
        rfl
      · rw [put_other _ _ same]
        rfl
    · intro q _
      by_cases same : q = elem.state
      · subst same
        rw [put_same, if_pos rfl]
        exact ⟨rfl, rfl⟩
      · rw [put_other _ _ same, if_neg same, Int.add_zero]
        exact ⟨rfl, rfl⟩
  | settled member final links _ =>
    exact flight_settled h synced member final (due answers final) links
  | requeued member _ final _ links =>
    exact flight_requeued h synced member final (due answers final) links

end Steps

section Idle

variable {m : QueueState}

theorem flight_state (spool : Spool m.disk.fs) (synced : Synced m) (flight : Flight m)
    {e : Msg} {q : Nat} (member : e ∈ (m.quelist ACT).msg) (queue : 1 ≤ q ∧ q ≤ m.countq)
    (listed : e.inode ∈ (m.quelist q).inodes) : e.state = q := by
  obtain ⟨low, high⟩ := synced.active e member
  have here := ((synced.agrees low high).listed e.inode).mp (flight.listed e member)
  have there := ((synced.agrees queue.1 queue.2).listed e.inode).mp listed
  exact spool.queue_unique here there

/-- The message that the IN branch or `flush_queue` takes is not in flight: the window
of one message is free, so that no entry in flight is of this queue. -/
theorem next_idle {q : Nat} {i : Ino} (spool : Spool m.disk.fs) (synced : Synced m)
    (flight : Flight m) (queue : 1 ≤ q ∧ q ≤ m.countq) (may : mayTransmit m q winsize)
    (file : getFilename m q = some i) : i ∉ (m.quelist ACT).inodes := by
  intro busy
  obtain ⟨e, member, rfl⟩ := List.mem_map.mp busy
  obtain ⟨elem, entry, inode⟩ := Option.map_eq_some_iff.mp file
  have listed : e.inode ∈ (m.quelist q).inodes :=
    inode ▸ List.mem_map_of_mem (List.mem_of_getElem? entry)
  have state := flight_state spool synced flight member queue listed
  have count : 0 < inFlight m q := List.countP_pos_iff.mpr ⟨e, member, decide_eq_true state⟩
  have send := flight.send queue.1 queue.2
  have room : (m.quelist q).send < 1 := may.1
  omega

end Idle

/-- What every state satisfies when the sender keeps its word. -/
structure Tracked (m : QueueState) : Prop where
  conserved : Conserved m
  flight : m.exited = false → Flight m

section Runs

variable {m m' : QueueState} {e : QueueEvent} {fs : Fs} {deferred : Nat} {timeout : Nat → Nat}
  {restored : Nat → List Msg}

theorem queueStep_tracked (h : Tracked m) (answers : Answers m e)
    (happens : queueStep m e = some m') : Tracked m' := by
  have living := queueStep_living happens
  have synced := h.conserved.synced living
  refine ⟨queueStep_conserved h.conserved happens, fun alive => ?_⟩
  have outcome := queueStep_outcome h.conserved.recorded.now.spool synced happens alive
  exact outcome_flight (h.flight living) synced answers outcome

theorem initqueue_tracked (spool : Spool fs) (lists : Restores fs deferred restored) :
    Tracked (initqueue fs deferred timeout restored) := by
  refine ⟨initqueue_conserved spool lists, fun _ => ⟨?_, ?_, ?_, ?_, ?_, ?_, ?_⟩⟩
  · intro elem member
    cases member
  · intro i member
    cases member
  · exact List.nodup_nil
  · exact List.Perm.refl _
  · intro q _ _
    rfl
  · intro q _ _
    rfl
  · intro q _ _
    unfold windowOf
    split
    · exact (by decide : (0 : Int) ≤ winsize)
    · exact (by decide : (0 : Int) ≤ windefsize)

private theorem accepted_le (m : QueueState) (q : Nat) : accepted m q ≤ inFlight m q := by
  apply List.countP_mono_left
  intro e _ both
  exact decide_eq_true (of_decide_eq_true both).1

theorem inFlight_le_total (h : Flight m) (q : Nat) :
    (inFlight m q : Int) ≤ (m.quelist q).total := by
  have flying : ((m.quelist ACT).msg.filter fun e => e.state = q).map Msg.inode ⊆
      (m.quelist q).inodes := by
    intro i member
    obtain ⟨e, inside, rfl⟩ := List.mem_map.mp member
    obtain ⟨present, state⟩ := List.mem_filter.mp inside
    have listed := h.listed e present
    rw [of_decide_eq_true state] at listed
    exact listed
  have nodup : (((m.quelist ACT).msg.filter fun e => e.state = q).map Msg.inode).Nodup :=
    List.Nodup.sublist (List.filter_sublist.map _) h.nodup
  have bound := (List.subperm_of_subset nodup flying).length_le
  rw [List.length_map, ← List.countP_eq_length_filter, Msglist.inodes, List.length_map] at bound
  exact Int.ofNat_le.mpr bound

/-- In every run in which the sender answers each file name with 1 and then once more:
the counters of every queue count its messages in flight and those confirmed, and stay
within the list and the window. -/
theorem counters_exact (spool : Spool fs) (lists : Restores fs deferred restored)
    {es : List QueueEvent}
    (answers : Guarded queueStep Answers (initqueue fs deferred timeout restored) es)
    (reached : run queueStep (initqueue fs deferred timeout restored) es = some m)
    (alive : m.exited = false) :
    ∀ q, 1 ≤ q → q ≤ m.countq →
      (m.quelist q).send = inFlight m q ∧ (m.quelist q).conf = accepted m q ∧
        0 ≤ (m.quelist q).conf ∧ (m.quelist q).conf ≤ (m.quelist q).send ∧
        (m.quelist q).send ≤ (m.quelist q).total ∧
        (m.quelist q).send ≤ if q = IN then 1 else 10 := by
  have tracked : Tracked m :=
    guarded_invariant (fun _ _ _ inv meets happens => queueStep_tracked inv meets happens)
      (initqueue_tracked spool lists) answers reached
  have flight := tracked.flight alive
  intro q queue range
  have send := flight.send queue range
  have conf := flight.conf queue range
  have confirmed := accepted_le m q
  refine ⟨send, conf, ?_, ?_, ?_, flight.window queue range⟩
  · omega
  · omega
  · rw [send]
    exact inFlight_le_total flight q

/-- The sender has confirmed the second of two messages and not yet dealt with it. -/
theorem counters_exact_second :
    ∃ m, run queueStep (initqueue [] 1 (fun _ => 60) fun _ => [])
        (delivery 5 ++ (delivery 6).take 4) = some m ∧
      (m.quelist IN).send = 1 ∧ inFlight m IN = 1 ∧ accepted m IN = 1 := by
  have reached : run queueStep (initqueue [] 1 (fun _ => 60) fun _ => [])
      (delivery 5 ++ (delivery 6).take 4) = some _ := rfl
  have counted := counters_exact spool_nil (restores_nil 1) (by decide) reached rfl IN
    (by decide) (by decide)
  have one : ((1 : Int)) = inFlight _ IN := counted.1
  have all : ((1 : Int)) = accepted _ IN := counted.2.1
  refine ⟨_, reached, rfl, ?_, ?_⟩
  · exact (Int.ofNat_inj.mp one).symm
  · exact (Int.ofNat_inj.mp all).symm

end Runs

end IecUtils.Queue.InFlight
