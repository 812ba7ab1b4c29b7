/- Module: IecUtils/Queue/Order
   source: mtimecomp and queue_sort of quemngr/quecontrol.c, quemngr/quemngr.c
   digest: Messages leave the IN queue in the order of their modification times. -/

import IecUtils.Queue.InFlight

set_option autoImplicit false
set_option relaxedAutoImplicit false

namespace IecUtils.Queue.Order

open IecUtils.Foundation.Transition
open IecUtils.Queue.Files
open IecUtils.Queue.Heap
open IecUtils.Queue.Control
open IecUtils.Queue.Manager
open IecUtils.Queue.Effects
open IecUtils.Queue.Conservation
open IecUtils.Queue.InFlight

/-- The difference is a `double`, which has the sign of the exact one. -/
def mtimecomp (m1 m2 : Msg) : Int :=
  let diff := ((m1.modtime.sec - m2.modtime.sec) * 1000000 + m1.modtime.usec) - m2.modtime.usec
  if diff < 0 then -1
  else if diff > 0 then 1
  else 0

def NoLater (a b : Timeval) : Prop := a.sec < b.sec ∨ a.sec = b.sec ∧ a.usec ≤ b.usec

/-- The times `stat` gives have their microseconds below a second. -/
def Stamped (_ : QueueState) : QueueEvent → Prop
  | .scan entries _ => ∀ d ∈ entries, d.tv.normal
  | _ => True

instance (m : QueueState) (e : QueueEvent) : Decidable (Stamped m e) :=
  match e with
  | .scan entries _ =>
      inferInstanceAs (Decidable (∀ d ∈ entries, 0 ≤ d.tv.usec ∧ d.tv.usec < 1000000))
  | .arrive _ => isTrue trivial
  | .signal _ => isTrue trivial
  | .sendIn => isTrue trivial
  | .flushSend _ => isTrue trivial
  | .expire => isTrue trivial
  | .response _ _ _ => isTrue trivial

/-- `m'` has written the name of one more message of IN to the sender. -/
def SentIn (m m' : QueueState) (i : Ino) : Prop :=
  ∃ busy, m'.copies = m.copies ++ [⟨IN, i, busy, none⟩]

section Comparison

variable {a b c : Msg}

theorem mtimecomp_le_zero : mtimecomp a b ≤ 0 ↔ a.time ≤ b.time := by
  unfold mtimecomp Msg.time
  dsimp only
  split
  · omega
  · split
    · omega
    · omega

theorem mtimecomp_swap (a b : Msg) : mtimecomp b a = -mtimecomp a b := by
  unfold mtimecomp
  dsimp only
  split_ifs
  all_goals omega

theorem mtimecomp_trans (first : mtimecomp a b ≤ 0) (second : mtimecomp b c ≤ 0) :
    mtimecomp a c ≤ 0 := by
  rw [mtimecomp_le_zero] at first second ⊢
  exact le_trans first second

theorem mtimecomp_noLater (first : a.modtime.normal) (second : b.modtime.normal) :
    mtimecomp a b ≤ 0 ↔ NoLater a.modtime b.modtime := by
  rw [mtimecomp_le_zero]
  unfold Timeval.normal at first second
  unfold Msg.time NoLater
  omega

theorem queueSort_iff {old new : List Msg} :
    QueueSort old new ↔ new.Perm old ∧ new.Pairwise fun a b => mtimecomp a b ≤ 0 := by
  unfold QueueSort
  simp only [mtimecomp_le_zero]

end Comparison

/-- The ACT list and the counters `send`, whatever the sender answers. -/
structure Counted (m : QueueState) : Prop where
  linked : ∀ i ∈ (m.quelist ACT).inodes, Has m.disk.fs .act i
  nodup : (m.quelist ACT).inodes.Nodup
  send : ∀ q, 1 ≤ q → (m.quelist q).send = inFlight m q

section Counters

variable {m m' : QueueState} {e : QueueEvent}

private theorem Counted.congr (h : Counted m) (act : m'.quelist ACT = m.quelist ACT)
    (links : ∀ i, Has m.disk.fs .act i → Has m'.disk.fs .act i)
    (send : ∀ q, 1 ≤ q → (m'.quelist q).send = (m.quelist q).send) : Counted m' := by
  refine ⟨?_, ?_, ?_⟩
  · intro i member
    rw [act] at member
    exact links i (h.linked i member)
  · rw [act]
    exact h.nodup
  · intro q queue
    rw [send q queue, h.send q queue, inFlight, inFlight, act]

private theorem counted_dispatch {q : Nat} {i : Ino} {p : Point} {trail : List Point}
    (h : Counted m) (queue : 1 ≤ q) (links : Copied m.disk.fs p.fs q i) :
    Counted (dispatch q i ((m.logCopy q i none).onDisk p trail)) := by
  obtain ⟨linked, nodup⟩ := dispatch_linked queue h.linked h.nodup links
  refine ⟨linked, nodup, ?_⟩
  · intro r other
    have before := h.send r other
    have lists : (dispatch q i ((m.logCopy q i none).onDisk p trail)).quelist r =
        if r = q then { m.quelist q with send := (m.quelist q).send + 1 } else m.quelist r :=
      dispatch_queue _ _ (queue_ne_act other)
    rw [lists, dispatch_inFlight queue]
    by_cases same : r = q
    · subst same
      simp only [if_true]
      omega
    · simp only [if_neg same, if_neg (Ne.symm same)]
      omega

private theorem counted_final {elem : Msg} {dst : Option Dir} (h : Counted m)
    (member : elem ∈ (m.quelist ACT).msg)
    (links : Departs m.disk.fs m'.disk.fs elem.state elem.inode dst)
    (act : m'.quelist ACT = elemDel (m.quelist ACT) elem.inode)
    (send : ∀ q, 1 ≤ q →
      (m'.quelist q).send = (m.quelist q).send - (if q = elem.state then 1 else 0)) :
    Counted m' := by
  have inodes : (m'.quelist ACT).inodes = (m.quelist ACT).inodes.erase elem.inode := by
    rw [act, elemDel_inodes]
  refine ⟨?_, ?_, ?_⟩
  · intro i inside
    rw [inodes] at inside
    obtain ⟨other, before⟩ := h.nodup.mem_erase_iff.mp inside
    exact (links.links _ _).mpr (.inl ⟨h.linked i before, fun both => other both.1⟩)
  · rw [inodes]
    exact h.nodup.erase _
  · intro q queue
    rw [send q queue]
    exact one_fewer (h.send q queue) (inFlight_removed h.nodup member act q)

theorem outcome_counted (h : Counted m) (synced : Synced m) (outcome : Outcome m e m') :
    Counted m' := by
  cases outcome with
  | idle => exact h
  | arrived links =>
    exact h.congr rfl (fun i here => (links _ _).mpr (.inl here)) fun _ _ => rfl
  | scanned links _ =>
    refine h.congr (put_other _ _ (by decide)) ?_ ?_
    · intro i here
      refine (links.links _ _).mpr (.inl ⟨here, ?_⟩)
      rintro ⟨impossible, _⟩
      cases impossible
    · intro q _
      by_cases same : q = IN
      · subst same
        rw [put_same]
      · rw [put_other _ _ same]
        rfl
  | sent queue _ _ links => exact counted_dispatch h queue.1 links
  | expired => exact ⟨h.linked, h.nodup, h.send⟩
  | @fired node p trail min _ links =>
    have low := (synced.timers node (List.mem_of_getElem? min)).1
    have sent : Counted (dispatch node.indque (definode node.inode)
        ((m.logCopy node.indque (definode node.inode) none).onDisk p trail)) :=
      counted_dispatch h (by omega) links
    exact ⟨sent.linked, sent.nodup, sent.send⟩
  | stray => exact ⟨h.linked, h.nodup, h.send⟩
  | @confirmed elem _ member =>
    have low := (synced.active elem member).1
    refine h.congr (put_other _ _ (Ne.symm (queue_ne_act low))) (fun _ here => here) ?_
    intro q _
    by_cases same : q = elem.state
    · subst same
      rw [put_same]
    · rw [put_other _ _ same]
      rfl
  | @settled elem _ _ _ _ _ member _ links _ =>
    have low := (synced.active elem member).1
    refine counted_final h member links (settle_act _ _ (queue_ne_act low)) ?_
    intro q queue
    rw [settle_queue _ _ (queue_ne_act queue)]
    split
    · rename_i same
      rw [same]
      rfl
    · rw [Int.sub_zero]
      rfl
  | @requeued elem _ _ _ _ member _ _ _ links =>
    have low := (synced.active elem member).1
    refine counted_final h member links (requeue_act _ _ _ (queue_ne_act low)) ?_
    intro q queue
    rw [requeue_queue _ _ _ (queue_ne_act queue)]
    split
    · rename_i same
      rw [same]
      rfl
    · rw [Int.sub_zero]
      split
      · rfl
      · rfl

end Counters

/-- The IN list is sorted, and its times are from `stat`. -/
structure Arranged (m : QueueState) : Prop where
  sorted : (m.quelist IN).msg.Pairwise fun a b => mtimecomp a b ≤ 0
  stamped : ∀ e ∈ (m.quelist IN).msg, e.modtime.normal

section Lists

variable {m m' : QueueState} {e : QueueEvent}

private theorem Arranged.sublist (h : Arranged m)
    (part : (m'.quelist IN).msg.Sublist (m.quelist IN).msg) : Arranged m' :=
  ⟨h.sorted.sublist part, fun e member => h.stamped e (part.subset member)⟩

private theorem scanEntry_in (m : QueueState) (d : Dirent) :
    scanEntry m d.name d.ino d.tv = m ∨ strtoul d.name = d.ino ∧
      ∀ e ∈ ((scanEntry m d.name d.ino d.tv).quelist IN).msg,
        e ∈ (m.quelist IN).msg ∨ e.modtime = d.tv := by
  unfold scanEntry
  split
  · exact .inl rfl
  · split
    · rename_i own
      refine .inr ⟨own, ?_⟩
      intro e member
      rw [perform] at member
      split at member
      · exact .inl member
      · rw [perform, takeIn] at member
        split at member
        · exact .inl member
        · rw [put_same] at member
          rcases List.mem_append.mp member with old | new
          · exact .inl old
          · right
            rw [List.mem_singleton.mp new]
            rfl
    · exact .inl rfl

private theorem scanLoop_stamped {entries : List Dirent}
    (stat : ∀ d ∈ entries, d.tv.normal) (h : ∀ e ∈ (m.quelist IN).msg, e.modtime.normal) :
    ∀ e ∈ ((scanLoop entries m).quelist IN).msg, e.modtime.normal := by
  induction entries generalizing m with
  | nil => exact h
  | cons d ds ih =>
    refine ih (m := scanEntry m d.name d.ino d.tv)
      (fun d' member => stat d' (List.mem_cons_of_mem _ member)) ?_
    rcases scanEntry_in m d with same | ⟨_, entries⟩
    · rw [same]
      exact h
    · intro e member
      rcases entries e member with old | new
      · exact h e old
      · rw [new]
        exact stat d List.mem_cons_self

private theorem scanLoop_foreign {entries : List Dirent}
    (foreign : ∀ d ∈ entries, strtoul d.name ≠ d.ino) : scanLoop entries m = m := by
  induction entries with
  | nil => rfl
  | cons d ds ih =>
    have later := ih fun d' member => foreign d' (List.mem_cons_of_mem _ member)
    rcases scanEntry_in m d with same | ⟨own, _⟩
    · rw [scanLoop, List.foldl_cons, same]
      exact later
    · exact absurd own (foreign d List.mem_cons_self)

private theorem scanDrop_arranged {entries : List Dirent} {sorted : List Msg} (h : Arranged m)
    (stat : ∀ d ∈ entries, d.tv.normal)
    (order : QueueSort ((scanLoop entries m).quelist IN).msg sorted)
    (alive : (scanDrop entries sorted m).exited = false) :
    Arranged (scanDrop entries sorted m) := by
  have living : ¬ (scanLoop entries m).exited = true := by
    intro gone
    rw [scanDrop, if_pos gone, gone] at alive
    cases alive
  obtain ⟨perm, pairs⟩ := queueSort_iff.mp order
  have stamped := scanLoop_stamped stat h.stamped
  rw [scanDrop, if_neg living]
  split
  · refine ⟨?_, ?_⟩
    · rw [put_same]
      exact pairs
    · rw [put_same]
      exact fun e member => stamped e (perm.subset member)
  · rename_i none
    have foreign : ∀ d ∈ entries, strtoul d.name ≠ d.ino := by
      simpa using none
    rw [scanLoop_foreign foreign]
    exact h

private theorem outcome_incoming (synced : Synced m) (outcome : Outcome m e m')
    (other : ∀ entries sorted, e ≠ .scan entries sorted) :
    (m'.quelist IN).msg.Sublist (m.quelist IN).msg := by
  have plain {q : Nat} {i : Ino} {x : QueueState} :
      ((dispatch q i x).quelist IN).msg = (x.quelist IN).msg := by
    rw [dispatch_queue _ _ (by decide)]
    split
    · rename_i same
      rw [same]
    · rfl
  cases outcome with
  | idle => exact List.Sublist.refl _
  | arrived => exact List.Sublist.refl _
  | scanned => exact absurd rfl (other _ _)
  | sent =>
    rw [plain]
    exact List.Sublist.refl _
  | expired => exact List.Sublist.refl _
  | fired =>
    dsimp only
    rw [plain]
    exact List.Sublist.refl _
  | stray => exact List.Sublist.refl _
  | @confirmed elem _ member =>
    by_cases same : IN = elem.state
    · rw [← same, put_same]
    · rw [put_other _ _ same]
      exact List.Sublist.refl _
  | settled =>
    rw [settle_queue _ _ (by decide)]
    split
    · rename_i same
      rw [← same]
      exact List.eraseP_sublist
    · exact List.Sublist.refl _
  | @requeued elem _ _ _ _ member _ _ _ _ =>
    have low := (synced.active elem member).1
    rw [requeue_queue _ _ _ (by decide)]
    split
    · rename_i same
      rw [← same]
      exact List.eraseP_sublist
    · have deferred : IN ≠ elem.state + 1 := by
        unfold IN
        omega
      rw [if_neg deferred]
      exact List.Sublist.refl _

end Lists

/-- What every state satisfies, whatever is answered and scanned. -/
structure Timely (m : QueueState) : Prop where
  conserved : Conserved m
  counted : m.exited = false → Counted m
  arranged : m.exited = false → Arranged m

section Runs

variable {m m' : QueueState} {e : QueueEvent} {i : Ino} {fs : Fs} {deferred : Nat}
  {timeout : Nat → Nat} {restored : Nat → List Msg}

theorem queueStep_timely (h : Timely m) (stat : Stamped m e) (happens : queueStep m e = some m') :
    Timely m' := by
  have living := queueStep_living happens
  have synced := h.conserved.synced living
  have outcome := queueStep_outcome h.conserved.recorded.now.spool synced happens
  refine ⟨queueStep_conserved h.conserved happens, ?_, ?_⟩
  · intro alive
    exact outcome_counted (h.counted living) synced (outcome alive)
  · intro alive
    by_cases scans : ∃ entries sorted, e = .scan entries sorted
    · obtain ⟨entries, sorted, rfl⟩ := scans
      obtain ⟨_, performs⟩ := queueStep_performs happens
      cases performs with
      | scan _ _ _ sort => exact scanDrop_arranged (h.arranged living) stat sort alive
    · refine (h.arranged living).sublist (outcome_incoming synced (outcome alive) ?_)
      intro entries sorted same
      exact scans ⟨entries, sorted, same⟩

/-- Whenever a message may be sent from IN, nothing of IN is in flight and the message is
the head of the list. -/
theorem Timely.next_first (h : Timely m) (living : m.exited = false)
    (may : mayTransmit m IN winsize) (file : getFilename m IN = some i) :
    ∃ first ∈ (m.quelist IN).msg, first.inode = i ∧
      ∀ e ∈ (m.quelist IN).msg, NoLater first.modtime e.modtime := by
  have arranged := h.arranged living
  have none : (m.quelist IN).send = 0 := by
    have counted := (h.counted living).send IN (Nat.le_refl _)
    have window : (m.quelist IN).send < 1 := may.1
    omega
  unfold getFilename at file
  rw [none] at file
  obtain ⟨first, head, rfl⟩ := Option.map_eq_some_iff.mp file
  have member : first ∈ (m.quelist IN).msg := List.mem_of_getElem? head
  refine ⟨first, member, rfl, ?_⟩
  intro e inside
  have own := arranged.stamped first member
  have ordered : mtimecomp first e ≤ 0 := by
    have sorted := arranged.sorted
    cases list : (m.quelist IN).msg with
    | nil =>
      rw [list] at member
      cases member
    | cons a rest =>
      rw [list] at head inside sorted
      obtain rfl : a = first := Option.some.inj head
      rcases List.mem_cons.mp inside with rfl | later
      · exact mtimecomp_le_zero.mpr (Int.le_refl _)
      · exact (List.pairwise_cons.mp sorted).1 e later
  exact (mtimecomp_noLater own (arranged.stamped e inside)).mp ordered

/-- In every run, with any listings of `drop` and any answers, each message sent from IN
has the least modification time of all the messages in its list. -/
theorem sent_in_order (spool : Spool fs) (lists : Restores fs deferred restored)
    (sorted : (restored IN).Pairwise fun a b => mtimecomp a b ≤ 0)
    (stat : ∀ e ∈ restored IN, e.modtime.normal) {es : List QueueEvent}
    (stamped : Guarded queueStep Stamped (initqueue fs deferred timeout restored) es)
    (reached : run queueStep (initqueue fs deferred timeout restored) es = some m)
    (happens : queueStep m e = some m') (sent : SentIn m m' i) :
    ∃ first ∈ (m.quelist IN).msg, first.inode = i ∧
      ∀ other ∈ (m.quelist IN).msg, NoLater first.modtime other.modtime := by
  have start : Timely (initqueue fs deferred timeout restored) := by
    refine ⟨initqueue_conserved spool lists, fun _ => ⟨?_, List.nodup_nil, fun _ _ => rfl⟩,
      fun _ => ⟨sorted, stat⟩⟩
    intro i member
    cases member
  have timely : Timely m :=
    guarded_invariant (fun _ _ _ inv meets happens => queueStep_timely inv meets happens)
      start stamped reached
  have living := queueStep_living happens
  have synced := timely.conserved.synced living
  obtain ⟨busy, logged⟩ := sent
  rcases queueStep_copies synced.incoming happens with same | ⟨q, j, attempt, copied⟩
  · rw [same] at logged
    exact absurd (congrArg List.length logged) (by simp)
  · have last := List.head_eq_of_cons_eq (List.append_cancel_left (copied.symm.trans logged))
    have queue : q = IN := congrArg Copy.queue last
    have inode : j = i := congrArg Copy.ino last
    rw [← inode]
    cases attempt with
    | next _ may file _ =>
      rw [queue] at may file
      exact timely.next_first living may file
    | timer min _ =>
      have low := (synced.timers _ (List.mem_of_getElem? min)).1
      unfold IN at queue
      omega

/-- The later file is listed first. -/
theorem sent_in_order_two : ∃ m m',
    run queueStep (initqueue [] 1 (fun _ => 60) fun _ => [])
        [.arrive 5, .arrive 6, .scan [⟨6, 6, ⟨7, 3⟩⟩, ⟨5, 5, ⟨7, 2⟩⟩] [⟨5, ⟨7, 2⟩, IN⟩, ⟨6, ⟨7, 3⟩, IN⟩]] =
      some m ∧ queueStep m .sendIn = some m' ∧ SentIn m m' 5 ∧
      ∃ first ∈ (m.quelist IN).msg, first.inode = 5 ∧
        ∀ other ∈ (m.quelist IN).msg, NoLater first.modtime other.modtime := by
  have reached : run queueStep (initqueue [] 1 (fun _ => 60) fun _ => [])
      [.arrive 5, .arrive 6, .scan [⟨6, 6, ⟨7, 3⟩⟩, ⟨5, 5, ⟨7, 2⟩⟩] [⟨5, ⟨7, 2⟩, IN⟩, ⟨6, ⟨7, 3⟩, IN⟩]] =
        some _ := rfl
  refine ⟨_, _, reached, rfl, ⟨false, rfl⟩, ?_⟩
  exact sent_in_order (e := .sendIn) spool_nil (restores_nil 1) List.Pairwise.nil
    (fun e member => absurd member List.not_mem_nil) (by decide) reached rfl ⟨false, rfl⟩

end Runs

end IecUtils.Queue.Order
