/- Module: IecUtils/Queue/Restart
   source: initqueue, flush_queue and main of quemngr/quemngr.c, queue_restore of quemngr/quecontrol.c
   digest: A restart after a crash can send what it restored exactly when the crash left none of it in act. -/

import IecUtils.Queue.Timers

set_option autoImplicit false
set_option relaxedAutoImplicit false

namespace IecUtils.Queue.Restart

open IecUtils.Foundation.LinkTable
open IecUtils.Foundation.Transition
open IecUtils.Queue.Files
open IecUtils.Queue.Heap
open IecUtils.Queue.Control
open IecUtils.Queue.Manager
open IecUtils.Queue.Effects
open IecUtils.Queue.Conservation
open IecUtils.Queue.InFlight
open IecUtils.Queue.MainLoop
open IecUtils.Queue.Timers

def restart (fs : Fs) (deferred : Nat) (timeout : Nat → Nat) (restored : Nat → List Msg)
    (clock : Int) : LoopState :=
  LoopState.start (initqueue fs deferred timeout restored) clock

/-- In no run of a daemon started on these directories, through the first SIGUSR1 and
on, does COPYFILE of a message restored from them meet a file in `act` that this run has
not put there: the message is not in flight and `link` fails with EEXIST. -/
def Resumes (fs : Fs) (deferred : Nat) (timeout : Nat → Nat) : Prop :=
  ∀ restored clock es t, Restores fs deferred restored →
    run loopStep (restart fs deferred timeout restored clock) es = some t →
    ∀ c ∈ t.queue.copies, ∀ q, 1 ≤ q → q ≤ deferred + 1 →
      c.ino ∈ (restored q).map Msg.inode → c.busy = false → c.error ≠ some .exist

/-- A message in a queue has a link in `act`. -/
def Leftover (fs : Fs) (deferred : Nat) : Prop :=
  ∃ q i, 1 ≤ q ∧ q ≤ deferred + 1 ∧ Has fs (.que q) i ∧ Has fs .act i

/-- The links in `act` are those of messages in flight and those found at the start. -/
def Explained (fs : Fs) (m : QueueState) : Prop :=
  ∀ i, Has m.disk.fs .act i → i ∈ (m.quelist ACT).inodes ∨ Has fs .act i

/-- What every state of a restarted daemon satisfies. -/
structure Resumed (fs : Fs) (s : LoopState) : Prop where
  running : Running s
  explained : s.queue.exited = false → Explained fs s.queue
  blamed : ∀ c ∈ s.queue.copies, c.busy = false → c.error = some .exist → Has fs .act c.ino

section Restarted

variable {fs : Fs} {m m' : QueueState} {f : QueueEvent} {s t : LoopState} {e : LoopEvent}

private theorem copyError_exist {q : Nat} {i : Ino} (spool : Spool fs) (queue : 1 ≤ q)
    (failed : copyError q i fs = some .exist) : Has fs .act i := by
  unfold copyError copyCall at failed
  rw [dirOf_queue queue] at failed
  split at failed
  · cases failed
  · rename_i error result
    rw [Option.some.inj failed] at result
    exact spool.copy_exist result

private theorem explained_departs {p : Point} {s : Nat} {i : Ino} {dst : Option Dir}
    (h : Explained fs m) (links : Departs m.disk.fs p.fs s i dst) (outside : dst ≠ some .act)
    (disk : m'.disk = p) (act : m'.quelist ACT = elemDel (m.quelist ACT) i) : Explained fs m' := by
  intro j linked
  rw [disk] at linked
  rcases (links.links _ _).mp linked with ⟨before, kept⟩ | ⟨_, there⟩
  · have apart : j ≠ i := fun same => kept ⟨same, .inl rfl⟩
    rcases h j before with active | old
    · left
      rw [act]
      exact mem_elemDel active apart
    · exact .inr old
  · exact absurd there outside

private theorem explained_dispatch {q : Nat} {i : Ino} {p : Point} {trail : List Point}
    (h : Explained fs m) (queue : 1 ≤ q) (links : Copied m.disk.fs p.fs q i) :
    Explained fs (dispatch q i ((m.logCopy q i none).onDisk p trail)) := by
  intro j linked
  rw [dispatch_act _ _ (queue_ne_act queue), elemAdd_inodes]
  rcases (links.links _ _).mp linked with before | ⟨_, rfl⟩
  · rcases h j before with active | old
    · exact .inl (List.mem_append_left _ active)
    · exact .inr old
  · exact .inl (List.mem_append_right _ (List.mem_singleton.mpr rfl))

private theorem outcome_explained (h : Explained fs m) (synced : Synced m)
    (outcome : Outcome m f m') : Explained fs m' := by
  cases outcome with
  | idle => exact h
  | arrived links =>
    intro j linked
    rcases (links _ _).mp linked with before | ⟨impossible, _⟩
    · exact h j before
    · cases impossible
  | scanned links =>
    intro j linked
    rw [put_other _ _ (by decide)]
    rcases (links.links _ _).mp linked with ⟨before, _⟩ | ⟨impossible, _⟩
    · exact h j before
    · cases impossible
  | sent queue _ _ links => exact explained_dispatch h queue.1 links
  | expired => exact h
  | @fired node _ _ min _ links =>
    have low := (synced.timers node (List.mem_of_getElem? min)).1
    exact explained_dispatch h (Nat.le_of_succ_le low) links
  | stray => exact h
  | confirmed member =>
    intro j linked
    rw [put_other _ _ (Ne.symm (queue_ne_act (synced.active _ member).1))]
    exact h j linked
  | @settled elem _ _ p trail dst member _ links away =>
    refine explained_departs h links ?_ rfl
      (settle_act _ _ (queue_ne_act (synced.active elem member).1))
    rintro rfl
    rcases away with impossible | impossible
    · cases impossible
    · cases impossible
  | @requeued elem _ _ p trail member _ _ _ links =>
    refine explained_departs h links ?_ rfl
      (requeue_act _ _ _ (queue_ne_act (synced.active elem member).1))
    intro impossible
    cases impossible

private theorem attempt_queue {q : Nat} {i : Ino} (synced : Synced m) (attempt : Attempt m f q i) :
    1 ≤ q := by
  cases attempt with
  | next queue => exact queue.1
  | timer min => exact Nat.le_of_succ_le (synced.timers _ (List.mem_of_getElem? min)).1

private theorem operates_blamed (h : Resumed fs s) (living : s.queue.exited = false)
    (step : queueStep s.queue f = some m') :
    ∀ c ∈ m'.copies, c.busy = false → c.error = some .exist → Has fs .act c.ino := by
  have synced := h.running.conserved.synced living
  have spool := h.running.conserved.recorded.now.spool
  intro c member idle failed
  rcases queueStep_copies synced.incoming step with same | ⟨q, i, attempt, logged⟩
  · rw [same] at member
    exact h.blamed c member idle failed
  · rw [logged] at member
    rcases List.mem_append.mp member with old | new
    · exact h.blamed c old idle failed
    · rw [List.mem_singleton.mp new] at idle failed ⊢
      have active := copyError_exist spool (attempt_queue synced attempt) failed
      rcases h.explained living i active with busy | left
      · exact absurd busy (of_decide_eq_false idle)
      · exact left

private theorem loopStep_resumed (h : Resumed fs s) (happens : loopStep s e = some t) :
    Resumed fs t := by
  have living := loopStep_living happens
  have running := loopStep_running h.running happens
  have synced := h.running.conserved.synced living
  have spool := h.running.conserved.recorded.now.spool
  have resting (same : t.queue = s.queue) : Resumed fs t := by
    refine ⟨running, ?_, ?_⟩
    · exact fun _ => same ▸ h.explained living
    · rw [same]
      exact h.blamed
  cases loopStep_progress (h.running.steady living) happens with
  | operates operation step =>
    refine ⟨running, ?_, operates_blamed h living step⟩
    intro alive
    exact outcome_explained (h.explained living) synced
      (queueStep_outcome spool synced step alive)
  | rests _ same => exact resting same
  | descends _ same => exact resting same
  | leaves _ same => exact resting same

private theorem restart_resumed {deferred : Nat} {timeout : Nat → Nat} {restored : Nat → List Msg}
    {clock : Int} (spool : Spool fs) (lists : Restores fs deferred restored) :
    Resumed fs (restart fs deferred timeout restored clock) := by
  refine ⟨start_running (initqueue_conserved spool lists), fun _ => ?_, ?_⟩
  · intro i linked
    exact .inr linked
  · intro c member
    cases member

theorem resumes_of_clean {deferred : Nat} {timeout : Nat → Nat} (spool : Spool fs)
    (clean : ¬ Leftover fs deferred) : Resumes fs deferred timeout := by
  intro restored clock es t lists reached c member q queue range listed idle failed
  have resumed := run_invariant (fun _ _ _ inv happens => loopStep_resumed inv happens)
    (restart_resumed spool lists) reached
  have left := resumed.blamed c member idle failed
  have here := (spool.mem_files _ _).mp ((lists q queue range).subset listed)
  exact clean ⟨q, c.ino, queue, range, here, left⟩

end Restarted

section Listing

variable {m : QueueState} {i : Ino}

private theorem strtoul_toNat (i : Ino) : strtoul i.toNat = i := by
  have below := i.toNat_lt
  have range : ((i.toNat : Int) < 2 ^ 64 ∧ -2 ^ 64 < (i.toNat : Int)) := by omega
  rw [strtoul, if_pos range]
  apply UInt64.toNat_inj.mp
  rw [UInt64.toNat_ofNat']
  omega

private theorem queueSort_exists (old : List Msg) : ∃ new, QueueSort old new := by
  refine ⟨old.mergeSort fun a b => a.time ≤ b.time, List.mergeSort_perm _ _, ?_⟩
  have sorted : (old.mergeSort fun a b => a.time ≤ b.time).Pairwise
      fun a b => decide (a.time ≤ b.time) = true := by
    refine List.pairwise_mergeSort ?_ ?_ old
    · intro a b c first second
      simp only [decide_eq_true_eq] at first second ⊢
      omega
    · intro a b
      simp only [Bool.or_eq_true, decide_eq_true_eq]
      omega
  exact sorted.imp fun step => of_decide_eq_true step

private theorem scanEntry_survives {tv : Timeval} (spool : Spool m.disk.fs)
    (living : m.exited = false) (here : Has m.disk.fs .drop i) :
    (scanEntry m i.toNat i tv).exited = false := by
  obtain ⟨fs, done⟩ : ∃ fs, (Call.rename (.drop, (i.toNat : Int))
      (dirOf IN, (i.toNat : Int))).exec m.disk.fs = .ok fs :=
    rename_ready spool.keyed here
  obtain ⟨k, same, _, spool', links⟩ := spool.moved (by decide) (by decide) (by decide) done
  obtain rfl : k = i := by
    apply UInt64.toNat_inj.mp
    omega
  have moved : Has fs (dirOf IN) k := (links _ _).mpr (.inr ⟨rfl, rfl⟩)
  have found : lookup fs (dirOf IN, (k.toNat : Int)) = some k := lookup_of_mem spool'.keyed moved
  unfold scanEntry
  rw [living, strtoul_toNat, perform, done]
  simp only [Bool.false_eq_true, if_false, if_true, perform, takeIn, Point.after,
    QueueState.onDisk, found]
  exact living

private theorem scanLoop_survives {entries : List Dirent} (spool : Spool m.disk.fs)
    (living : m.exited = false)
    (listed : ∀ d ∈ entries, d.name = d.ino.toNat ∧ Has m.disk.fs .drop d.ino)
    (nodup : (entries.map Dirent.ino).Nodup) : (scanLoop entries m).exited = false := by
  induction entries generalizing m with
  | nil => exact living
  | cons d ds ih =>
    obtain ⟨name, here⟩ := listed d List.mem_cons_self
    rw [List.map_cons, List.nodup_cons] at nodup
    have alive : (scanEntry m d.name d.ino d.tv).exited = false := by
      rw [name]
      exact scanEntry_survives spool living here
    have step : scanLoop (d :: ds) m = scanLoop ds (scanEntry m d.name d.ino d.tv) := rfl
    rw [step]
    rcases scanEntry_alive spool living alive with
      same | ⟨k, p, trail, named, spool', links, result⟩
    · rw [same]
      exact ih spool living (fun x inside => listed x (List.mem_cons_of_mem _ inside)) nodup.2
    · have own : k = d.ino := by
        apply UInt64.toNat_inj.mp
        omega
      rw [result] at alive ⊢
      refine ih (m := (m.onDisk p trail).put IN _) spool' alive ?_ nodup.2
      intro x inside
      obtain ⟨name', there⟩ := listed x (List.mem_cons_of_mem _ inside)
      refine ⟨name', (links.links _ _).mpr (.inl ⟨there, ?_⟩)⟩
      rintro ⟨_, only⟩
      apply nodup.1
      rw [← own, ← List.mem_singleton.mp only]
      exact List.mem_map_of_mem inside

private theorem scan_ready (spool : Spool m.disk.fs) (living : m.exited = false) :
    ∃ entries sorted, Readdir m.disk.fs entries ∧
      QueueSort ((scanLoop entries m).quelist IN).msg sorted ∧
      (scanDrop entries sorted m).exited = false := by
  let entries : List Dirent :=
    (m.disk.fs.filter fun l => l.dir = .drop).map fun l => ⟨l.name, l.file, ⟨0, 0⟩⟩
  have listing : Readdir m.disk.fs entries := by
    unfold Readdir
    rw [List.map_map]
    refine List.Perm.of_eq ?_
    conv => rhs; rw [← List.map_id (m.disk.fs.filter fun l => l.dir = .drop)]
    apply List.map_congr_left
    intro l member
    have dir : l.dir = .drop := of_decide_eq_true (List.mem_filter.mp member).2
    obtain ⟨ldir, lname, lfile⟩ := l
    simp only at dir
    subst dir
    rfl
  have alive : (scanLoop entries m).exited = false := by
    refine scanLoop_survives spool living ?_ ?_
    · intro d inside
      obtain ⟨l, member, rfl⟩ := List.mem_map.mp inside
      obtain ⟨present, dir⟩ := List.mem_filter.mp member
      have here := spool.has_of_mem present
      rw [of_decide_eq_true dir] at here
      exact ⟨spool.named l present, here⟩
    · rw [List.map_map]
      exact spool.files_nodup .drop
  obtain ⟨sorted, order⟩ := queueSort_exists ((scanLoop entries m).quelist IN).msg
  refine ⟨entries, sorted, listing, order, ?_⟩
  unfold scanDrop
  simp only [alive, Bool.false_eq_true, if_false]
  split
  · exact alive
  · exact alive

end Listing

/-- What holds besides while the sender answers. -/
structure Answered (fs : Fs) (s : LoopState) : Prop extends Resumed fs s where
  flight : s.queue.exited = false → Flight s.queue

/-- No inode number needs the sign bit of a `long`. -/
def Plain (fs : Fs) : Prop := ∀ l ∈ fs, l.file.toNat < 2 ^ 63

/-- `flush_queue` is at queue `q` with nothing in flight, and the spool still has all
that was left in `act` and no message that was not there at the start. -/
structure Flushing (fs : Fs) (q : Nat) (s : LoopState) : Prop where
  place : s.place = .flush q
  alive : s.queue.exited = false
  resumed : Answered fs s
  quiet : (s.queue.quelist ACT).msg = []
  source : ∀ r i, Has s.queue.disk.fs (.que r) i → Has fs (.que r) i ∨ Has fs .drop i
  left : ∀ i, Has fs .act i → Has s.queue.disk.fs .act i

/-- A run comes to a COPYFILE that fails with EEXIST for a message restored. -/
def Fails (fs : Fs) (deferred : Nat) (s : LoopState) : Prop :=
  ∃ t, Reaches loopStep (Lifted Answers) s t ∧ ∃ c ∈ t.queue.copies, c.busy = false ∧
    c.error = some .exist ∧ ∃ q, 1 ≤ q ∧ q ≤ deferred + 1 ∧ Has fs (.que q) c.ino

section Flush

variable {fs : Fs} {q : Nat} {s t : LoopState}

private theorem silent_answers {e : LoopEvent} (other : ∀ i code, e ≠ .response i code) :
    Lifted Answers s e := by
  intro f operation
  cases f with
  | response i code now =>
    exact absurd ((operation_origin operation).2 i code now rfl) (other i code)
  | arrive => exact trivial
  | signal => exact trivial
  | scan => exact trivial
  | sendIn => exact trivial
  | flushSend => exact trivial
  | expire => exact trivial

private theorem loopStep_answered {e : LoopEvent} (h : Answered fs s) (answers : Lifted Answers s e)
    (happens : loopStep s e = some t) : Answered fs t :=
  ⟨loopStep_resumed h.toResumed happens, loopStep_flight h.running h.flight answers happens⟩

private theorem Flushing.within (h : Flushing fs q s) : q ≤ s.queue.countq := by
  refine (h.resumed.running.steady h.alive).within q ?_
  rw [h.place]
  rfl

private theorem Flushing.idle (h : Flushing fs q s) (i : Ino) :
    i ∉ (s.queue.quelist ACT).inodes := by
  intro busy
  rw [Msglist.inodes, h.quiet] at busy
  cases busy

private theorem Flushing.small (h : Flushing fs q s) (plain : Plain fs) {r : Nat} {i : Ino}
    (here : Has s.queue.disk.fs (.que r) i) : i.toNat < 2 ^ 63 := by
  rcases h.source r i here with old | old
  · exact plain _ old
  · exact plain _ old

private theorem Flushing.next (h : Flushing fs (q + 1) s) {e : Msg} {rest : List Msg}
    (first : (s.queue.quelist (q + 1)).msg = e :: rest) :
    mayTransmit s.queue (q + 1) winsize ∧ getFilename s.queue (q + 1) = some e.inode := by
  have flight := h.resumed.flight h.alive
  have within := h.within
  have send : (s.queue.quelist (q + 1)).send = 0 := by
    rw [flight.send (Nat.le_add_left _ _) within, inFlight, h.quiet]
    rfl
  have conf : (s.queue.quelist (q + 1)).conf = 0 := by
    rw [flight.conf (Nat.le_add_left _ _) within, accepted, h.quiet]
    rfl
  refine ⟨⟨?_, ?_, ?_⟩, ?_⟩
  · rw [send]
    decide
  · rw [send, Msglist.total, first, List.length_cons]
    omega
  · rw [send, conf]
  · rw [getFilename, send, first]
    rfl

private theorem Flushing.turn (h : Flushing fs (q + 1) s) {e : Msg} {rest : List Msg}
    (first : (s.queue.quelist (q + 1)).msg = e :: rest) :
    loopStep s .turn =
      some { s with queue := sendFile (q + 1) e.inode s.queue, place := .drain (q + 1) } := by
  obtain ⟨may, file⟩ := h.next first
  have filled : (s.queue.quelist (q + 1)).total > 0 := by
    rw [Msglist.total, first, List.length_cons]
    omega
  simp [loopStep, h.alive, h.place, flushTurn, filled, sendNext, may, file]

private theorem turn_answers : Lifted Answers s .turn :=
  silent_answers fun _ _ impossible => by cases impossible

private theorem next_answers : Lifted Answers s .next :=
  silent_answers fun _ _ impossible => by cases impossible

private theorem Flushing.stuck {deferred : Nat} (h : Flushing fs (q + 1) s) (spool : Spool fs)
    (queued : Queued fs) (plain : Plain fs) (count : s.queue.countq = deferred + 1) {e : Msg}
    {rest : List Msg} (first : (s.queue.quelist (q + 1)).msg = e :: rest)
    (active : Has s.queue.disk.fs .act e.inode) : Fails fs deferred s := by
  have within := h.within
  have synced := h.resumed.running.conserved.synced h.alive
  have listed : e.inode ∈ (s.queue.quelist (q + 1)).inodes := by
    rw [Msglist.inodes, first]
    exact List.mem_cons_self
  have here := ((synced.agrees (Nat.le_add_left _ _) within).listed e.inode).mp listed
  have failed : copyError (q + 1) e.inode s.queue.disk.fs = some .exist := by
    rw [copyError, copyCall, dirOf_queue (Nat.le_add_left 1 q)]
    rw [h.resumed.running.conserved.recorded.now.spool.copy_taken (h.small plain here) here active]
  refine ⟨_, Reaches.one turn_answers (h.turn first), ?_⟩
  refine ⟨⟨q + 1, e.inode, decide (e.inode ∈ (s.queue.quelist ACT).inodes), some .exist⟩, ?_,
    decide_eq_false (h.idle e.inode), rfl, q + 1, Nat.le_add_left _ _, count ▸ within, ?_⟩
  · show _ ∈ (sendFile (q + 1) e.inode s.queue).copies
    rw [sendFile_copies, failed]
    exact List.mem_append_right _ (List.mem_singleton.mpr rfl)
  · -- It is a restored message: what was in `drop` had no link in `act`.
    rcases h.source (q + 1) e.inode here with old | dropped
    · exact old
    · have before : Has fs .act e.inode := by
        rcases h.resumed.explained h.alive e.inode active with busy | left
        · exact absurd busy (h.idle e.inode)
        · exact left
      obtain ⟨r, waits⟩ := queued e.inode before
      have both := spool.once dropped waits (by decide) (fun impossible => by cases impossible)
      cases both

section Alone

variable {m : QueueState} {elem : Msg} (now : Timeval)

private theorem checkResponse_confirms (alone : (m.quelist ACT).msg = [elem]) :
    checkResponse elem.inode 1 now m = m.put elem.state
      { m.quelist elem.state with conf := (m.quelist elem.state).conf + 1 } := by
  simp [checkResponse, elemFind, alone]

private theorem checkResponse_delivers (spool : Spool m.disk.fs)
    (alone : (m.quelist ACT).msg = [elem]) (queue : 1 ≤ elem.state)
    (small : elem.inode.toNat < 2 ^ 63) (active : Has m.disk.fs .act elem.inode)
    (here : Has m.disk.fs (.que elem.state) elem.inode) :
    ∃ p trail, Departs m.disk.fs p.fs elem.state elem.inode none ∧
      checkResponse elem.inode 0 now m = settle elem.state elem.inode (m.onDisk p trail) := by
  obtain ⟨f, released⟩ := spool.unlink_ready small active
  obtain ⟨_, spool', links⟩ := spool.unlinked released
  have still : Has f (.que elem.state) elem.inode := by
    refine (links _ _).mpr ⟨here, ?_⟩
    rintro ⟨impossible, _⟩
    cases impossible
  obtain ⟨f', removed⟩ := spool'.unlink_ready small still
  have called : checkResponse elem.inode 0 now m =
      perform [{ call := .unlink (.act, ld elem.inode) },
        { call := .unlink (.que elem.state, ld elem.inode), delivers := some elem.inode }]
        (settle elem.state elem.inode) m := by
    simp [checkResponse, elemFind, alone, dirOf_queue queue]
  let p := m.disk.after { call := .unlink (.act, ld elem.inode) } f
  let p' := p.after
    { call := .unlink (.que elem.state, ld elem.inode), delivers := some elem.inode } f'
  refine ⟨p', (m.trail ++ [p]) ++ [p'], departs_unlink spool' active links removed, ?_⟩
  rw [called, perform, released]
  simp only
  have removed' : (Call.unlink (.que elem.state, ld elem.inode)).exec
      (m.onDisk p (m.trail ++ [p])).disk.fs = .ok f' := removed
  rw [perform, removed']
  rfl

end Alone

/-- `flush_queue` reads responses while one message is in flight. -/
structure Draining (fs : Fs) (q : Nat) (elem : Msg) (s : LoopState) : Prop where
  place : s.place = .drain q
  alive : s.queue.exited = false
  resumed : Answered fs s
  alone : (s.queue.quelist ACT).msg = [elem]
  queue : 1 ≤ elem.state

private theorem response_answers {i : Ino} {code : Int}
    (owed : (i, decide (code ≠ 1)) ∈ s.queue.due) : Lifted Answers s (.response i code) := by
  intro f operation
  obtain rfl := Option.some.inj operation
  exact owed

private theorem drain_response (i : Ino) (code : Int) (alive : s.queue.exited = false)
    (place : s.place = .drain q) :
    loopStep s (.response i code) = some (loopResponse i code s) := by
  simp [loopStep, alive, place]

private theorem Draining.confirms {elem : Msg} (h : Draining fs q elem s)
    (owed : (elem.inode, false) ∈ s.queue.due) :
    ∃ t, Reaches loopStep (Lifted Answers) s t ∧ Draining fs q elem t ∧
      (elem.inode, true) ∈ t.queue.due ∧ t.queue.disk = s.queue.disk ∧
      t.queue.countq = s.queue.countq ∧
      (t.queue.quelist elem.state).msg = (s.queue.quelist elem.state).msg := by
  have happens := drain_response elem.inode 1 h.alive h.place
  have result : (loopResponse elem.inode 1 s).queue =
      (s.queue.answer elem.inode 1).put elem.state
        { s.queue.quelist elem.state with conf := (s.queue.quelist elem.state).conf + 1 } :=
    checkResponse_confirms _ h.alone
  refine ⟨_, Reaches.one (response_answers owed) happens, ⟨h.place, ?_, ?_, ?_, h.queue⟩, ?_⟩
  · rw [result]
    exact h.alive
  · exact loopStep_answered h.resumed (response_answers owed) happens
  · rw [result, put_other _ _ (Ne.symm (queue_ne_act h.queue))]
    exact h.alone
  · rw [result, put_same]
    exact ⟨List.mem_cons_self, rfl, rfl, rfl⟩

private theorem Draining.delivers {elem : Msg} (h : Draining fs q elem s)
    (owed : (elem.inode, true) ∈ s.queue.due) (small : elem.inode.toNat < 2 ^ 63)
    (here : Has s.queue.disk.fs (.que elem.state) elem.inode) :
    ∃ t, Reaches loopStep (Lifted Answers) s t ∧ Answered fs t ∧ t.place = .drain q ∧
      t.queue.exited = false ∧ (t.queue.quelist ACT).msg = [] ∧
      Departs s.queue.disk.fs t.queue.disk.fs elem.state elem.inode none ∧
      t.queue.countq = s.queue.countq ∧ (t.queue.quelist elem.state).msg =
        (elemDel (s.queue.quelist elem.state) elem.inode).msg := by
  have happens := drain_response elem.inode 0 h.alive h.place
  have active : Has s.queue.disk.fs .act elem.inode := by
    refine (h.resumed.flight h.alive).linked _ ?_
    rw [Msglist.inodes, h.alone]
    exact List.mem_cons_self
  obtain ⟨p, trail, links, result⟩ := checkResponse_delivers (getmonotime s.clock)
    (m := s.queue.answer elem.inode 0) h.resumed.running.conserved.recorded.now.spool h.alone
    h.queue small active here
  have settled : (loopResponse elem.inode 0 s).queue =
      settle elem.state elem.inode ((s.queue.answer elem.inode 0).onDisk p trail) := result
  refine ⟨_, Reaches.one (response_answers owed) happens,
    loopStep_answered h.resumed (response_answers owed) happens, h.place, ?_, ?_, ?_, ?_, ?_⟩
  · rw [settled]
    exact h.alive
  · have alone : ((s.queue.answer elem.inode 0).onDisk p trail).quelist ACT =
        s.queue.quelist ACT := rfl
    rw [settled, settle_act _ _ (queue_ne_act h.queue), alone, elemDel, h.alone]
    simp
  · rw [settled]
    exact links
  · rw [settled]
    rfl
  · rw [settled, settle_queue _ _ (queue_ne_act h.queue), if_pos rfl]
    rfl

private theorem Flushing.sends (h : Flushing fs (q + 1) s) (plain : Plain fs) {e : Msg}
    {rest : List Msg} (first : (s.queue.quelist (q + 1)).msg = e :: rest)
    (here : Has s.queue.disk.fs (.que (q + 1)) e.inode)
    (idle : ¬ Has s.queue.disk.fs .act e.inode) :
    ∃ t, Reaches loopStep (Lifted Answers) s t ∧
      Draining fs (q + 1) (elemNew e.inode ⟨0, 0⟩ (q + 1)) t ∧
      (e.inode, false) ∈ t.queue.due ∧ t.queue.countq = s.queue.countq ∧
      Copied s.queue.disk.fs t.queue.disk.fs (q + 1) e.inode ∧
      (t.queue.quelist (q + 1)).msg = e :: rest := by
  have low : 1 ≤ q + 1 := Nat.le_add_left _ _
  have spool := h.resumed.running.conserved.recorded.now.spool
  have sent := sendFile_survives spool h.alive low (h.small plain here) here idle
  obtain ⟨p, trail, links, result⟩ := sendFile_alive spool low sent
  have turned := h.turn first
  rw [result] at turned sent
  refine ⟨_, Reaches.one turn_answers turned,
    ⟨rfl, sent, loopStep_answered h.resumed turn_answers turned, ?_, low⟩,
    List.mem_append_right _ (List.mem_singleton.mpr rfl), rfl, links, ?_⟩
  · have act := dispatch_act (q := q + 1)
      ((s.queue.logCopy (q + 1) e.inode none).onDisk p trail) e.inode (queue_ne_act low)
    rw [act, elemAdd]
    show (s.queue.quelist ACT).msg ++ _ = _
    rw [h.quiet]
    rfl
  · show ((dispatch (q + 1) e.inode
      ((s.queue.logCopy (q + 1) e.inode none).onDisk p trail)).quelist (q + 1)).msg = e :: rest
    rw [dispatch_queue _ _ (queue_ne_act low), if_pos rfl]
    exact first

private theorem Flushing.advance (h : Flushing fs (q + 1) s) (plain : Plain fs) {e : Msg}
    {rest : List Msg} (first : (s.queue.quelist (q + 1)).msg = e :: rest)
    (idle : ¬ Has s.queue.disk.fs .act e.inode) :
    ∃ t, Reaches loopStep (Lifted Answers) s t ∧ Flushing fs (q + 1) t ∧
      t.queue.countq = s.queue.countq ∧ (t.queue.quelist (q + 1)).msg = rest ∧
      (∀ r j, j ≠ e.inode → Has s.queue.disk.fs (.que r) j → Has t.queue.disk.fs (.que r) j) ∧
      ∀ j, Has s.queue.disk.fs .act j → Has t.queue.disk.fs .act j := by
  have synced := h.resumed.running.conserved.synced h.alive
  have listed : e.inode ∈ (s.queue.quelist (q + 1)).inodes := by
    rw [Msglist.inodes, first]
    exact List.mem_cons_self
  have here := ((synced.agrees (Nat.le_add_left _ _) h.within).listed e.inode).mp listed
  obtain ⟨m, sent, draining, owed, count, links, waiting⟩ := h.sends plain first here idle
  -- The sender answers 1 and 0.
  obtain ⟨t, confirmed, draining', owed', disk, count', lists⟩ := draining.confirms owed
  obtain ⟨u, delivered, resumed, place, alive, quiet, departs, count'', lists'⟩ :=
    draining'.delivers owed' (h.small plain here) (by
      rw [disk]
      exact (links.links _ _).mpr (.inl here))
  have ended : loopStep u .next = some { u with place := .flush (q + 1) } := by
    simp [loopStep, alive, place]
  rw [disk] at departs
  have after (d : Dir) (j : Ino) : Has u.queue.disk.fs d j ↔
      (Has s.queue.disk.fs d j ∨ d = .act ∧ j = e.inode) ∧
        ¬ (j = e.inode ∧ (d = .act ∨ d = .que (q + 1))) := by
    refine (departs.links d j).trans ?_
    refine (or_iff_left fun there => by cases there.2).trans ?_
    exact and_congr_left fun _ => links.links d j
  have kept (r : Nat) (j : Ino) (apart : j ≠ e.inode) (old : Has s.queue.disk.fs (.que r) j) :
      Has u.queue.disk.fs (.que r) j :=
    (after _ _).mpr ⟨.inl old, fun both => apart both.1⟩
  have active (j : Ino) (old : Has s.queue.disk.fs .act j) : Has u.queue.disk.fs .act j := by
    refine (after _ _).mpr ⟨.inl old, ?_⟩
    rintro ⟨rfl, _⟩
    exact idle old
  have chain : Reaches loopStep (Lifted Answers) s { u with place := .flush (q + 1) } :=
    ((sent.trans confirmed).trans delivered).trans (Reaches.one next_answers ended)
  refine ⟨_, chain, ⟨rfl, alive, loopStep_answered resumed next_answers ended, quiet, ?_, ?_⟩,
    (count''.trans count').trans count, ?_, kept, active⟩
  · intro r j there
    rcases ((after _ _).mp there).1 with old | ⟨impossible, _⟩
    · exact h.source r j old
    · cases impossible
  · intro j linked
    exact active j (h.left j linked)
  · have remaining : (t.queue.quelist (q + 1)).msg = e :: rest := lists.trans waiting
    show (u.queue.quelist (q + 1)).msg = rest
    refine lists'.trans ?_
    show ((t.queue.quelist (q + 1)).msg.eraseP fun x => x.inode = e.inode) = rest
    rw [remaining, List.eraseP_cons_of_pos (by simp)]

private theorem Flushing.fails {deferred : Nat} (spool : Spool fs) (queued : Queued fs)
    (plain : Plain fs) (h : Flushing fs q s) (count : s.queue.countq = deferred + 1)
    (ahead : ∃ r i, 1 ≤ r ∧ r ≤ q ∧ Has s.queue.disk.fs (.que r) i ∧
      Has s.queue.disk.fs .act i) : Fails fs deferred s := by
  induction q generalizing s with
  | zero =>
    obtain ⟨r, i, low, high, _⟩ := ahead
    omega
  | succ q ih =>
    have low : 1 ≤ q + 1 := Nat.le_add_left _ _
    -- Within the queue the induction is on what it still has to send.
    generalize waiting : (s.queue.quelist (q + 1)).msg = msgs
    induction msgs generalizing s with
    | nil =>
      have synced := h.resumed.running.conserved.synced h.alive
      have empty : ¬ (s.queue.quelist (q + 1)).total > 0 := by
        rw [Msglist.total, waiting]
        decide
      have turned : loopStep s .turn = some { s with place := .flush q } := by
        simp [loopStep, h.alive, h.place, flushTurn, empty]
      have below : Flushing fs q { s with place := .flush q } :=
        ⟨rfl, h.alive, loopStep_answered h.resumed turn_answers turned, h.quiet, h.source, h.left⟩
      obtain ⟨r, i, positive, high, here, active⟩ := ahead
      have other : r ≠ q + 1 := by
        rintro rfl
        have listed := ((synced.agrees low h.within).listed i).mpr here
        rw [Msglist.inodes, waiting] at listed
        cases listed
      obtain ⟨t, reached, failure⟩ :=
        ih below count ⟨r, i, positive, by omega, here, active⟩
      exact ⟨t, (Reaches.one turn_answers turned).trans reached, failure⟩
    | cons e rest ih' =>
      by_cases active : Has s.queue.disk.fs .act e.inode
      · exact h.stuck spool queued plain count waiting active
      · obtain ⟨t, reached, flushing, count', remaining, kept, linked⟩ :=
          h.advance plain waiting active
        obtain ⟨r, i, positive, high, here, left⟩ := ahead
        have apart : i ≠ e.inode := by
          rintro rfl
          exact active left
        obtain ⟨u, reached', failure⟩ := ih' flushing (count'.trans count)
          ⟨r, i, positive, high, kept r i apart here, linked i left⟩ remaining
        exact ⟨u, reached.trans reached', failure⟩

end Flush

/-- Nothing has been sent since the start; files of `drop` may have been taken in. -/
structure Unsent (fs : Fs) (deferred : Nat) (s : LoopState) : Prop where
  alive : s.queue.exited = false
  resumed : Answered fs s
  count : s.queue.countq = deferred + 1
  quiet : (s.queue.quelist ACT).msg = []
  source : ∀ r i, Has s.queue.disk.fs (.que r) i → Has fs (.que r) i ∨ Has fs .drop i
  dropped : ∀ i, Has s.queue.disk.fs .drop i → Has fs .drop i
  waiting : ∀ r i, Has fs (.que r) i → Has s.queue.disk.fs (.que r) i
  left : ∀ i, Has fs .act i → Has s.queue.disk.fs .act i

section Start

variable {fs : Fs} {deferred : Nat} {s t : LoopState}

private theorem Unsent.scan (h : Unsent fs deferred s) (place : Place) (fds : LoopState)
    (queue : fds.queue = s.queue) (event : List Dirent → List Msg → LoopEvent)
    (answers : ∀ entries sorted, Lifted Answers s (event entries sorted))
    (step : ∀ entries sorted, loopStep s (event entries sorted) =
      loopScan entries sorted place fds) :
    ∃ t, Reaches loopStep (Lifted Answers) s t ∧ Unsent fs deferred t ∧ t.place = place ∧
      t.isconnect = fds.isconnect := by
  have spool := h.resumed.running.conserved.recorded.now.spool
  obtain ⟨entries, sorted, listing, order, alive⟩ := scan_ready spool h.alive
  have happens : loopStep s (event entries sorted) =
      some { fds with queue := scanDrop entries sorted s.queue, place := place } := by
    rw [step, loopScan, queue, if_pos ⟨listing, order⟩]
  have resumed := loopStep_answered h.resumed (answers entries sorted) happens
  refine ⟨_, Reaches.one (answers entries sorted) happens, ?_, rfl, rfl⟩
  have outcome := scan_outcome spool h.alive order alive
  generalize scanDrop entries sorted s.queue = m at alive outcome resumed ⊢
  cases outcome with
  | idle => exact ⟨alive, resumed, h.count, h.quiet, h.source, h.dropped, h.waiting, h.left⟩
  | sent _ _ _ _ cause =>
    rcases cause with ⟨impossible, _⟩ | impossible
    · cases impossible
    · cases impossible
  | @scanned _ _ added new p trail links perm =>
    refine ⟨alive, resumed, h.count, ?_, ?_, ?_, ?_, ?_⟩
    · show (((s.queue.onDisk p trail).put IN _).quelist ACT).msg = []
      rw [put_other _ _ (by decide)]
      exact h.quiet
    · intro r i here
      rcases (links.links _ _).mp here with ⟨old, _⟩ | ⟨_, new⟩
      · exact h.source r i old
      · exact .inr (h.dropped i (links.here i new))
    · intro i here
      rcases (links.links _ _).mp here with ⟨old, _⟩ | ⟨impossible, _⟩
      · exact h.dropped i old
      · cases impossible
    · intro r i old
      refine (links.links _ _).mpr (.inl ⟨h.waiting r i old, ?_⟩)
      rintro ⟨impossible, _⟩
      cases impossible
    · intro i old
      refine (links.links _ _).mpr (.inl ⟨h.left i old, ?_⟩)
      rintro ⟨impossible, _⟩
      cases impossible

private theorem Unsent.moves (h : Unsent fs deferred s)
    (reached : Reaches loopStep (Lifted Answers) s t) (queue : t.queue = s.queue) : Unsent fs deferred t := by
  have resumed := reached.invariant
    (fun _ _ _ inv answers happens => loopStep_answered inv answers happens) h.resumed
  exact ⟨queue ▸ h.alive, resumed, queue ▸ h.count, queue ▸ h.quiet, queue ▸ h.source,
    queue ▸ h.dropped, queue ▸ h.waiting, queue ▸ h.left⟩

private theorem Unsent.reconnects (h : Unsent fs deferred s) (place : s.place = .init)
    (down : s.isconnect = false) :
    ∃ t, Reaches loopStep (Lifted Answers) s t ∧ Unsent fs deferred t ∧
      t.place = .flush (deferred + 1) := by
  -- `initqueue` scans `drop`.
  obtain ⟨a, first, unsent, top, same⟩ := h.scan .top s rfl .scan
    (fun _ _ => silent_answers fun _ _ impossible => by cases impossible)
    (fun _ _ => by simp [loopStep, h.alive, place])
  -- The loop waits for a signal.
  let b : LoopState := { a with place := .signals, polled := a.clock }
  have waits : Reaches loopStep (Lifted Answers) a b := by
    refine ⟨[.block, .ready, .next, .next], ?_, ?_⟩
    · refine ⟨silent_answers fun _ _ impossible => (by cases impossible), fun _ _ => ?_⟩
      refine ⟨silent_answers fun _ _ impossible => (by cases impossible), fun _ _ => ?_⟩
      exact ⟨next_answers, fun _ _ => ⟨next_answers, fun _ _ => trivial⟩⟩
    · simp [loopStep, unsent.alive, top, beforePoll, same, down, b]
  have unsent' : Unsent fs deferred b := unsent.moves waits rfl
  -- It is SIGUSR1.
  obtain ⟨c, last, unsent'', flush, _⟩ := unsent'.scan (.flush (deferred + 1))
    { b with isconnect := true, trigfd := true, pipefd := true } rfl .sigusr1
    (fun _ _ => silent_answers fun _ _ impossible => by cases impossible)
    (fun _ _ => by
      rw [← unsent'.count]
      simp [loopStep, unsent.alive, b])
  exact ⟨c, (first.trans waits).trans last, unsent'', flush⟩

theorem not_resumes_of_leftover {timeout : Nat → Nat} (spool : Spool fs) (queued : Queued fs)
    (plain : Plain fs) (left : Leftover fs deferred) : ¬ Resumes fs deferred timeout := by
  intro resumes
  let restored : Nat → List Msg := fun q =>
    (fs.filter fun l => l.dir = .que q).map fun l => ⟨l.file, ⟨0, 0⟩, q⟩
  have inodes (q : Nat) : (restored q).map Msg.inode =
      (fs.filter fun l => l.dir = .que q).map Entry.file := by
    rw [List.map_map]
    rfl
  have lists : Restores fs deferred restored := fun q _ _ => List.Perm.of_eq (inodes q)
  have answered : Answered fs (restart fs deferred timeout restored 0) :=
    ⟨restart_resumed spool lists, (initqueue_tracked spool lists).flight⟩
  have unsent : Unsent fs deferred (restart fs deferred timeout restored 0) :=
    ⟨rfl, answered, rfl, rfl, fun _ _ old => .inl old, fun _ old => old, fun _ _ old => old,
      fun _ old => old⟩
  obtain ⟨s, reached, unsent', flush⟩ := unsent.reconnects rfl rfl
  have flushing : Flushing fs (deferred + 1) s :=
    ⟨flush, unsent'.alive, unsent'.resumed, unsent'.quiet, unsent'.source, unsent'.left⟩
  obtain ⟨q, i, low, high, here, active⟩ := left
  obtain ⟨t, reached', c, member, idle, failed, r, low', high', waits⟩ :=
    flushing.fails spool queued plain unsent'.count
      ⟨q, i, low, high, unsent'.waiting q i here, unsent'.left i active⟩
  obtain ⟨es, _, taken⟩ := reached.trans reached'
  refine resumes restored 0 es t lists taken c member r low' high' ?_ idle failed
  rw [inodes]
  exact (spool.mem_files _ _).mpr waits

end Start

/-- At every point of the run the links in `act` belong to messages in the queues. -/
structure Attached (m : QueueState) : Prop where
  conserved : Conserved m
  now : Queued m.disk.fs
  before : ∀ p ∈ m.trail, Queued p.fs

section Killed

variable {fs : Fs} {deferred : Nat} {timeout : Nat → Nat} {restored : Nat → List Msg} {clock : Int}
  {s : LoopState}

private theorem queueStep_attached {m m' : QueueState} {f : QueueEvent} (h : Attached m)
    (happens : queueStep m f = some m') : Attached m' := by
  have synced := h.conserved.synced (queueStep_living happens)
  obtain ⟨now, before⟩ := queueStep_queued h.conserved.recorded synced happens h.now h.before
  exact ⟨queueStep_conserved h.conserved happens, now, before⟩

private theorem initqueue_attached (spool : Spool fs) (lists : Restores fs deferred restored)
    (queued : Queued fs) : Attached (initqueue fs deferred timeout restored) := by
  refine ⟨initqueue_conserved spool lists, queued, ?_⟩
  intro p member
  rw [List.mem_singleton.mp member]
  exact queued

/-- A daemon killed at any point `p` of any run, between two file calls, can be started
again and send what it restores if no message of `in` and `df` has a link in `act` at
that point, and, for inode numbers that `%ld` prints as they are, only then. -/
theorem restart_after_kill (spool : Spool fs) (lists : Restores fs deferred restored)
    {es : List LoopEvent}
    (reached : run loopStep (restart fs deferred timeout restored clock) es = some s)
    {p : Point} (killed : p ∈ s.queue.trail) :
    (¬ Leftover p.fs deferred → Resumes p.fs deferred timeout) ∧
      (Queued fs → Plain p.fs → Resumes p.fs deferred timeout → ¬ Leftover p.fs deferred) := by
  have operations : Reaches queueStep (fun _ _ => True)
      (initqueue fs deferred timeout restored) s.queue :=
    run_operations (start_running (initqueue_conserved spool lists))
      (guarded_of_forall (fun _ _ _ _ => trivial) _ es) reached
  have conserved : Conserved s.queue :=
    operations.invariant (fun _ _ _ inv _ happens => queueStep_conserved inv happens)
      (initqueue_conserved spool lists)
  have spool' : Spool p.fs := (conserved.recorded.before p killed).spool
  refine ⟨resumes_of_clean spool', ?_⟩
  intro queued plain resumes left
  have attached : Attached s.queue :=
    operations.invariant (fun _ _ _ inv _ happens => queueStep_attached inv happens)
      (initqueue_attached spool lists queued)
  exact not_resumes_of_leftover spool' (attached.before p killed) plain left resumes

end Killed

section Scenarios

theorem restores_two {fs : Fs} {restored : Nat → List Msg}
    (first : ((restored 1).map Msg.inode).Perm ((fs.filter fun l => l.dir = .que 1).map Entry.file))
    (second : ((restored 2).map Msg.inode).Perm
      ((fs.filter fun l => l.dir = .que 2).map Entry.file)) : Restores fs 1 restored := by
  intro q low high
  have range : q = 1 ∨ q = 2 := by omega
  rcases range with rfl | rfl
  · exact first
  · exact second

/-- Message 5 waits in `in` and was in flight. -/
def inFlightLeft : Fs := [⟨.que 1, 5, 5⟩, ⟨.act, 5, 5⟩]

def deferredLeft : Fs := [⟨.que 2, 5, 5⟩]

private theorem inFlightLeft_leftover : Leftover inFlightLeft 1 :=
  ⟨1, 5, by decide, by decide, by decide, by decide⟩

private theorem inFlightLeft_plain : Plain inFlightLeft := by
  unfold Plain
  decide

private theorem deferredLeft_clean : ¬ Leftover deferredLeft 1 := by
  rintro ⟨q, i, _, _, _, active⟩
  cases List.mem_singleton.mp active

set_option maxRecDepth 4000

theorem restart_after_kill_deferred :
    ∃ s, run loopStep daemon (connect ++ dropped [5] ++ attempted 5 2) = some s ∧
      (⟨deferredLeft, [5]⟩ ∈ s.queue.trail ∧ Resumes deferredLeft 1 fun _ => 60) ∧
      (⟨inFlightLeft, [5]⟩ ∈ s.queue.trail ∧ ¬ Resumes inFlightLeft 1 fun _ => 60) := by
  obtain ⟨s, reached, clean, left⟩ :
      ∃ s, run loopStep daemon (connect ++ dropped [5] ++ attempted 5 2) = some s ∧
        ⟨deferredLeft, [5]⟩ ∈ s.queue.trail ∧ ⟨inFlightLeft, [5]⟩ ∈ s.queue.trail :=
    ⟨_, rfl, List.mem_of_getElem? (i := 5) rfl, List.mem_of_getElem? (i := 3) rfl⟩
  have queued : Queued [] := fun _ impossible => by cases impossible
  refine ⟨s, reached, ⟨clean, ?_⟩, left, ?_⟩
  · exact (restart_after_kill spool_nil (restores_nil 1) reached clean).1 deferredLeft_clean
  · intro resumes
    exact (restart_after_kill spool_nil (restores_nil 1) reached left).2 queued inFlightLeft_plain
      resumes inFlightLeft_leftover

/-- The lists `queue_restore` makes of `inFlightLeft`. -/
def restoredLeft (q : Nat) : List Msg := if q = IN then [⟨5, ⟨0, 0⟩, IN⟩] else []

/-- The start on `inFlightLeft` and the first SIGUSR1. -/
def reconnect : List LoopEvent :=
  [.scan [] (restoredLeft IN), .block, .ready, .next, .next, .sigusr1 [] (restoredLeft IN), .turn,
    .turn]

theorem restart_blocked :
    (∃ s, run loopStep daemon (connect ++ dropped [5] ++ [.block]) = some s ∧
      s.queue.disk.fs = inFlightLeft) ∧
    Restores inFlightLeft 1 restoredLeft ∧
    (∃ t, run loopStep (restart inFlightLeft 1 (fun _ => 60) restoredLeft 0) reconnect = some t ∧
      t.queue.exited = true ∧ t.queue.copies = [⟨IN, 5, false, some .exist⟩]) ∧
    ¬ Resumes inFlightLeft 1 fun _ => 60 := by
  have lists : Restores inFlightLeft 1 restoredLeft := restores_two (by decide) (by decide)
  have failed : run loopStep (restart inFlightLeft 1 (fun _ => 60) restoredLeft 0) reconnect =
      some _ := rfl
  refine ⟨⟨_, rfl, rfl⟩, lists, ⟨_, failed, rfl, rfl⟩, ?_⟩
  intro resumes
  exact resumes restoredLeft 0 reconnect _ lists failed ⟨IN, 5, false, some .exist⟩
    (List.mem_of_getElem? (i := 0) rfl) IN (by decide) (by decide) (by decide) rfl rfl

end Scenarios

end IecUtils.Queue.Restart
