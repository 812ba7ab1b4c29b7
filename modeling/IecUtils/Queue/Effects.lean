/- Module: IecUtils/Queue/Effects
   source: quemngr/quemngr.c, quemngr/quecontrol.c
   digest: What a completed step does to the lists, the timers and the links of a spool in order. -/

import IecUtils.Queue.Manager

set_option autoImplicit false
set_option relaxedAutoImplicit false

namespace IecUtils.Queue.Effects

open IecUtils.Foundation.LinkTable
open IecUtils.Foundation.Transition
open IecUtils.Queue.Files
open IecUtils.Queue.Heap
open IecUtils.Queue.Control
open IecUtils.Queue.Manager

section Fields

variable (m : QueueState) {q p s : Nat} (l : Msglist) (i : Ino) (now : Timeval)

@[simp] theorem put_same : (m.put q l).quelist q = l := by
  simp [QueueState.put]

@[simp] theorem put_other (apart : p ≠ q) : (m.put q l).quelist p = m.quelist p := by
  simp [QueueState.put, apart]

@[simp] theorem dispatch_act (queue : q ≠ ACT) :
    (dispatch q i m).quelist ACT = elemAdd (m.quelist ACT) (elemNew i ⟨0, 0⟩ q) := by
  simp [dispatch, QueueState.put, Ne.symm queue]

@[simp] theorem dispatch_queue (queue : p ≠ ACT) :
    (dispatch q i m).quelist p =
      if p = q then { m.quelist q with send := (m.quelist q).send + 1 } else m.quelist p := by
  by_cases same : p = q
  · subst same
    simp [dispatch, QueueState.put, queue]
  · simp [dispatch, QueueState.put, queue, same]

theorem dispatch_inodes (queue : p ≠ ACT) :
    ((dispatch q i m).quelist p).inodes = (m.quelist p).inodes := by
  rw [dispatch_queue _ _ queue]
  split
  · rename_i equal
    rw [equal]
    rfl
  · rfl

@[simp] theorem settle_act (queue : s ≠ ACT) :
    (settle s i m).quelist ACT = elemDel (m.quelist ACT) i := by
  simp [settle, QueueState.put, Ne.symm queue]

@[simp] theorem settle_queue (queue : p ≠ ACT) :
    (settle s i m).quelist p =
      if p = s then { elemDel (m.quelist s) i with
        conf := (m.quelist s).conf - 1
        send := (m.quelist s).send - 1 }
      else m.quelist p := by
  by_cases same : p = s
  · subst same
    simp [settle, QueueState.put, queue, elemDel]
  · simp [settle, QueueState.put, queue, same]

@[simp] theorem requeue_act (queue : s ≠ ACT) :
    (requeue s i now m).quelist ACT = elemDel (m.quelist ACT) i := by
  have next : ACT ≠ s + 1 := by
    unfold ACT
    omega
  simp [requeue, addTimer, settle_act _ _ queue, next]

@[simp] theorem requeue_queue (queue : p ≠ ACT) :
    (requeue s i now m).quelist p =
      if p = s then { elemDel (m.quelist s) i with
        conf := (m.quelist s).conf - 1
        send := (m.quelist s).send - 1 }
      else if p = s + 1 then elemAdd (m.quelist p) (elemNew i ⟨0, 0⟩ p)
      else m.quelist p := by
  by_cases same : p = s
  · subst same
    simp [requeue, addTimer, settle_queue _ _ queue]
  · by_cases next : p = s + 1
    · subst next
      simp [requeue, addTimer, settle_queue _ _ queue]
    · simp [requeue, addTimer, settle_queue _ _ queue, same, next]

theorem requeue_timers : ∃ key, (requeue s i now m).timerheap.nodes.Perm
    (⟨key, s + 1, i.toUInt32⟩ :: m.timerheap.nodes) :=
  ⟨_, heapInsert_perm _ _ _ _⟩

theorem queue_ne_act (queue : 1 ≤ q) : q ≠ ACT := by
  unfold ACT
  omega

end Fields

/-- A list holds exactly the inodes linked in its directory, each once. -/
structure Agrees (l : Msglist) (fs : Fs) (q : Nat) : Prop where
  nodup : l.inodes.Nodup
  listed : ∀ i, i ∈ l.inodes ↔ Has fs (.que q) i

/-- The lists of a live process agree with its directories, and everything else
refers to queues that exist. -/
structure Synced (m : QueueState) : Prop where
  incoming : 1 ≤ m.countq
  agrees : ∀ {q}, 1 ≤ q → q ≤ m.countq → Agrees (m.quelist q) m.disk.fs q
  active : ∀ e ∈ (m.quelist ACT).msg, 1 ≤ e.state ∧ e.state ≤ m.countq
  timers : ∀ n ∈ m.timerheap.nodes, 2 ≤ n.indque ∧ n.indque ≤ m.countq

/-- The links after a final answer: those in `act` and in the queue are gone, and
there may be a new one elsewhere. -/
structure Departs (fs fs' : Fs) (s : Nat) (i : Ino) (dst : Option Dir) : Prop where
  here : Has fs (.que s) i
  active : Has fs .act i
  links : ∀ d j, Has fs' d j ↔
    Has fs d j ∧ ¬ (j = i ∧ (d = .act ∨ d = .que s)) ∨ j = i ∧ dst = some d

structure Copied (fs fs' : Fs) (q : Nat) (i : Ino) : Prop where
  here : Has fs (.que q) i
  idle : ¬ Has fs .act i
  links : ∀ d j, Has fs' d j ↔ Has fs d j ∨ d = .act ∧ j = i

/-- The links after `scan_drop` has taken in the files `added`. -/
structure Accepted (fs fs' : Fs) (added : List Ino) : Prop where
  here : ∀ i ∈ added, Has fs .drop i
  nodup : added.Nodup
  links : ∀ d j, Has fs' d j ↔
    Has fs d j ∧ ¬ (d = .drop ∧ j ∈ added) ∨ d = .que IN ∧ j ∈ added

/-- Everything a step can do that the process survives. -/
inductive Outcome (m : QueueState) : QueueEvent → QueueState → Prop
  | idle {e : QueueEvent} (silent : ∀ i code now, e ≠ .response i code now) : Outcome m e m
  | arrived {i : Ino} {p : Point} {trail : List Point}
      (links : ∀ d j, Has p.fs d j ↔ Has m.disk.fs d j ∨ d = .drop ∧ j = i)
      (fresh : ∀ d, ¬ Has m.disk.fs d i) :
      Outcome m (.arrive i) (m.onDisk p trail)
  | scanned {entries : List Dirent} {sorted added new : List Msg} {p : Point}
      {trail : List Point}
      (links : Accepted m.disk.fs p.fs (added.map Msg.inode))
      (perm : new.Perm ((m.quelist IN).msg ++ added)) :
      Outcome m (.scan entries sorted)
        ((m.onDisk p trail).put IN { m.quelist IN with msg := new })
  | sent {e : QueueEvent} {q : Nat} {i : Ino} {p : Point} {trail : List Point}
      (queue : 1 ≤ q ∧ q ≤ m.countq) (may : mayTransmit m q winsize)
      (next : getFilename m q = some i) (links : Copied m.disk.fs p.fs q i)
      (cause : e = .sendIn ∧ q = IN ∨ e = .flushSend q) :
      Outcome m e (dispatch q i ((m.logCopy q i none).onDisk p trail))
  | expired {node : HeapNode} (min : heapMin m.timerheap = some node)
      (missing : definode node.inode ∉ (m.quelist node.indque).inodes) :
      Outcome m .expire { m with timerheap := heapExtractMin m.timerheap }
  | fired {node : HeapNode} {p : Point} {trail : List Point}
      (min : heapMin m.timerheap = some node)
      (may : mayTransmit m node.indque windefsize)
      (links : Copied m.disk.fs p.fs node.indque (definode node.inode)) :
      Outcome m .expire
        { dispatch node.indque (definode node.inode)
            ((m.logCopy node.indque (definode node.inode) none).onDisk p trail) with
          timerheap := heapExtractMin m.timerheap }
  | stray {i : Ino} {code : Int} {now : Timeval} (missing : i ∉ (m.quelist ACT).inodes) :
      Outcome m (.response i code now) (m.answer i code)
  | confirmed {elem : Msg} {now : Timeval} (member : elem ∈ (m.quelist ACT).msg) :
      Outcome m (.response elem.inode 1 now)
        ((m.answer elem.inode 1).put elem.state
          { m.quelist elem.state with conf := (m.quelist elem.state).conf + 1 })
  | settled {elem : Msg} {code : Int} {now : Timeval} {p : Point} {trail : List Point}
      {dst : Option Dir} (member : elem ∈ (m.quelist ACT).msg) (final : code ≠ 1)
      (links : Departs m.disk.fs p.fs elem.state elem.inode dst)
      (away : dst = none ∨ dst = some .fail) :
      Outcome m (.response elem.inode code now)
        (settle elem.state elem.inode ((m.answer elem.inode code).onDisk p trail))
  | requeued {elem : Msg} {code : Int} {now : Timeval} {p : Point} {trail : List Point}
      (member : elem ∈ (m.quelist ACT).msg) (failed : code ≠ 0) (final : code ≠ 1)
      (below : elem.state < m.countq)
      (links : Departs m.disk.fs p.fs elem.state elem.inode (some (.que (elem.state + 1)))) :
      Outcome m (.response elem.inode code now)
        (requeue elem.state elem.inode now ((m.answer elem.inode code).onDisk p trail))

section Inversion

variable {m m' : QueueState} {q s : Nat} {i : Ino}

theorem dirOf_queue (queue : 1 ≤ q) : dirOf q = .que q := by
  rw [dirOf, if_neg (queue_ne_act queue)]

theorem perform_alive {a : Action} {rest : List Action} {commit : QueueState → QueueState}
    (alive : (perform (a :: rest) commit m).exited = false) :
    ∃ fs, a.call.exec m.disk.fs = .ok fs ∧
      perform (a :: rest) commit m = perform rest commit
        (m.onDisk (m.disk.after a fs) (m.trail ++ [m.disk.after a fs])) := by
  cases called : a.call.exec m.disk.fs with
  | error e =>
    rw [perform, called] at alive
    cases alive
  | ok fs =>
    refine ⟨fs, rfl, ?_⟩
    rw [perform, called]

theorem sendFile_alive (spool : Spool m.disk.fs) (queue : 1 ≤ q)
    (alive : (sendFile q i m).exited = false) :
    ∃ p trail, Copied m.disk.fs p.fs q i ∧
      sendFile q i m = dispatch q i ((m.logCopy q i none).onDisk p trail) := by
  obtain ⟨fs, done, result⟩ := perform_alive alive
  have quiet : copyError q i m.disk.fs = none := by
    have done' : (copyCall q i).exec m.disk.fs = .ok fs := done
    rw [copyError, done']
  have call : (Call.link (.que q, ld i) (.act, ld i)).exec m.disk.fs = .ok fs := by
    rw [← dirOf_queue queue]
    exact done
  obtain ⟨here, idle, _, links⟩ := spool.copy call
  let p := m.disk.after { call := copyCall q i } fs
  refine ⟨p, m.trail ++ [p], ⟨here, idle, links⟩, result.trans ?_⟩
  rw [quiet]
  rfl

theorem sendFile_survives (spool : Spool m.disk.fs)
    (alive : m.exited = false) (queue : 1 ≤ q) (small : i.toNat < 2 ^ 63)
    (here : Has m.disk.fs (.que q) i) (idle : ¬ Has m.disk.fs .act i) :
    (sendFile q i m).exited = false := by
  obtain ⟨f, copied⟩ := spool.copy_ready small here idle
  have call : (copyCall q i).exec m.disk.fs = .ok f := by
    rw [copyCall, dirOf_queue queue]
    exact copied
  rw [sendFile, perform]
  simp only [QueueState.logCopy, call]
  exact alive

theorem final_alive {a : Action} {commit : QueueState → QueueState}
    (spool : Spool m.disk.fs)
    (alive : (perform [{ call := .unlink (.act, ld i) }, a] commit m).exited = false) :
    ∃ fs fs', a.call.exec fs = .ok fs' ∧ Spool fs ∧ Has m.disk.fs .act i ∧
      (∀ d j, Has fs d j ↔ Has m.disk.fs d j ∧ ¬ (d = .act ∧ j = i)) ∧
      ∃ p trail, p.fs = fs' ∧
        perform [{ call := .unlink (.act, ld i) }, a] commit m = commit (m.onDisk p trail) := by
  obtain ⟨fs, first, result⟩ := perform_alive alive
  rw [result] at alive ⊢
  obtain ⟨fs', second, result'⟩ := perform_alive alive
  obtain ⟨active, spool', links⟩ := spool.unlinked first
  exact ⟨fs, fs', second, spool', active, links, _, _, rfl, result'⟩

theorem departs_unlink {fs fs' : Fs} {f : Fs} (spool : Spool f) (active : Has fs .act i)
    (released : ∀ d j, Has f d j ↔ Has fs d j ∧ ¬ (d = .act ∧ j = i))
    (done : (Call.unlink (.que s, ld i)).exec f = .ok fs') : Departs fs fs' s i none := by
  obtain ⟨here, _, links⟩ := spool.unlinked done
  refine ⟨((released _ _).mp here).1, active, ?_⟩
  intro d j
  rw [links, released]
  constructor
  · rintro ⟨⟨before, kept⟩, other⟩
    refine .inl ⟨before, ?_⟩
    rintro ⟨rfl, rfl | rfl⟩
    · exact kept ⟨rfl, rfl⟩
    · exact other ⟨rfl, rfl⟩
  · rintro (⟨before, other⟩ | ⟨_, impossible⟩)
    · refine ⟨⟨before, ?_⟩, ?_⟩
      · rintro ⟨rfl, rfl⟩
        exact other ⟨rfl, .inl rfl⟩
      · rintro ⟨rfl, rfl⟩
        exact other ⟨rfl, .inr rfl⟩
    · cases impossible

theorem departs_rename {fs fs' : Fs} {f : Fs} {dst : Dir} (spool : Spool f)
    (active : Has fs .act i)
    (released : ∀ d j, Has f d j ↔ Has fs d j ∧ ¬ (d = .act ∧ j = i))
    (outside : dst ≠ .act) (apart : .que s ≠ dst)
    (done : (Call.rename (.que s, ld i) (dst, ld i)).exec f = .ok fs') :
    Departs fs fs' s i (some dst) := by
  obtain ⟨j, name, here, _, links⟩ := spool.moved (fun h => by cases h) outside apart done
  have same : j = i := by
    have member : (⟨.que s, ld i, j⟩ : Entry Dir Int Ino) ∈ f := by
      rw [name]
      exact here
    exact (spool.has_of_path member).1
  subst same
  refine ⟨((released _ _).mp here).1, active, ?_⟩
  intro d k
  rw [links, released]
  constructor
  · rintro (⟨⟨before, kept⟩, other⟩ | ⟨rfl, rfl⟩)
    · refine .inl ⟨before, ?_⟩
      rintro ⟨rfl, rfl | rfl⟩
      · exact kept ⟨rfl, rfl⟩
      · exact other ⟨rfl, rfl⟩
    · exact .inr ⟨rfl, rfl⟩
  · rintro (⟨before, other⟩ | ⟨rfl, there⟩)
    · refine .inl ⟨⟨before, ?_⟩, ?_⟩
      · rintro ⟨rfl, rfl⟩
        exact other ⟨rfl, .inl rfl⟩
      · rintro ⟨rfl, rfl⟩
        exact other ⟨rfl, .inr rfl⟩
    · exact .inr ⟨(Option.some.inj there).symm, rfl⟩

theorem response_outcome {code : Int} {now : Timeval} (spool : Spool m.disk.fs)
    (active : ∀ e ∈ (m.quelist ACT).msg, 1 ≤ e.state ∧ e.state ≤ m.countq)
    (alive : (checkResponse i code now (m.answer i code)).exited = false) :
    Outcome m (.response i code now) (checkResponse i code now (m.answer i code)) := by
  unfold checkResponse at alive ⊢
  split
  · rename_i missing
    exact .stray (elemFind_none missing)
  · rename_i indelem found
    obtain ⟨elem, entry, member, rfl⟩ := elemFind_some found
    obtain ⟨queue, range⟩ := active elem member
    rw [found] at alive
    simp only [entry, dirOf_queue queue, dirOf_queue (Nat.le_add_left 1 elem.state)] at alive ⊢
    by_cases delivered : code = 0
    · rw [if_pos delivered] at alive ⊢
      obtain ⟨f, fs', done, spool', linked, released, p, trail, disk, result⟩ :=
        final_alive (m := m.answer elem.inode code) spool alive
      rw [result]
      have links := departs_unlink spool' linked released done
      rw [← disk] at links
      exact .settled member (by omega) links (.inl rfl)
    · rw [if_neg delivered] at alive ⊢
      by_cases confirmed : code = 1
      · subst confirmed
        exact .confirmed member
      · rw [if_neg confirmed] at alive ⊢
        split
        · rename_i last
          rw [if_pos last] at alive
          obtain ⟨f, fs', done, spool', linked, released, p, trail, disk, result⟩ :=
            final_alive (m := m.answer elem.inode code) spool alive
          rw [result]
          have links := departs_rename spool' linked released (fun h => by cases h)
            (fun h => by cases h) done
          rw [← disk] at links
          exact .settled member confirmed links (.inr rfl)
        · rename_i below
          rw [if_neg below] at alive
          obtain ⟨f, fs', done, spool', linked, released, p, trail, disk, result⟩ :=
            final_alive (m := m.answer elem.inode code) spool alive
          rw [result]
          have below' : elem.state ≠ m.countq := below
          refine .requeued member delivered confirmed (by omega) ?_
          rw [disk]
          refine departs_rename spool' linked released (fun h => by cases h) ?_ done
          intro same
          injection same with same
          omega

theorem scanEntry_alive {name : Int} {tv : Timeval} (spool : Spool m.disk.fs)
    (living : m.exited = false) (alive : (scanEntry m name i tv).exited = false) :
    scanEntry m name i tv = m ∨ ∃ k : Ino, ∃ p trail, name = k.toNat ∧ Spool p.fs ∧
      Accepted m.disk.fs p.fs [k] ∧ scanEntry m name i tv =
        (m.onDisk p trail).put IN (elemAdd (m.quelist IN) (elemNew k tv IN)) := by
  unfold scanEntry at alive ⊢
  rw [living] at alive ⊢
  simp only [Bool.false_eq_true, if_false] at alive ⊢
  split
  · rename_i own
    rw [if_pos own] at alive
    obtain ⟨fs, done, result⟩ := perform_alive alive
    obtain ⟨k, rfl, here, spool', links⟩ := spool.moved (d := .drop) (e := dirOf IN)
      (fun h => by cases h) (fun h => by cases h) (fun h => by cases h) done
    rw [result] at alive ⊢
    simp only [perform, takeIn] at alive ⊢
    split
    · rename_i gone
      rw [gone] at alive
      cases alive
    · rename_i stIno found
      have named : (k.toNat : Int) = stIno.toNat := spool'.named _ (lookup_mem found)
      obtain rfl : stIno = k := by
        apply UInt64.toNat_inj.mp
        omega
      refine .inr ⟨stIno, _, _, rfl, ?_, ?_, rfl⟩
      · exact spool'
      · refine ⟨?_, List.nodup_singleton _, ?_⟩
        · intro j member
          rw [List.mem_singleton.mp member]
          exact here
        · intro d j
          rw [List.mem_singleton]
          exact links d j
  · exact .inl rfl

private theorem Accepted.trans {fs fs' fs'' : Fs} {added later : List Ino}
    (first : Accepted fs fs' added) (second : Accepted fs' fs'' later) :
    Accepted fs fs'' (added ++ later) := by
  have before (j : Ino) (member : j ∈ later) : Has fs .drop j ∧ j ∉ added := by
    rcases (first.links _ _).mp (second.here j member) with ⟨here, other⟩ | ⟨impossible, _⟩
    · exact ⟨here, fun twice => other ⟨rfl, twice⟩⟩
    · cases impossible
  refine ⟨?_, ?_, ?_⟩
  · intro j member
    rcases List.mem_append.mp member with old | new
    · exact first.here j old
    · exact (before j new).1
  · refine List.nodup_append.mpr ⟨first.nodup, second.nodup, ?_⟩
    rintro a old b new rfl
    exact (before a new).2 old
  · intro d j
    rw [second.links, first.links, List.mem_append]
    constructor
    · rintro (⟨⟨old, other⟩ | ⟨rfl, member⟩, kept⟩ | ⟨rfl, member⟩)
      · refine .inl ⟨old, ?_⟩
        rintro ⟨rfl, member | member⟩
        · exact other ⟨rfl, member⟩
        · exact kept ⟨rfl, member⟩
      · exact .inr ⟨rfl, .inl member⟩
      · exact .inr ⟨rfl, .inr member⟩
    · rintro (⟨old, other⟩ | ⟨rfl, member | member⟩)
      · refine .inl ⟨.inl ⟨old, ?_⟩, ?_⟩
        · rintro ⟨rfl, member⟩
          exact other ⟨rfl, .inl member⟩
        · rintro ⟨rfl, member⟩
          exact other ⟨rfl, .inr member⟩
      · refine .inl ⟨.inr ⟨rfl, member⟩, ?_⟩
        rintro ⟨impossible, _⟩
        cases impossible
      · exact .inr ⟨rfl, member⟩

private theorem Accepted.none (fs : Fs) : Accepted fs fs [] := by
  refine ⟨?_, List.nodup_nil, ?_⟩
  · intro j member
    cases member
  · intro d j
    simp

theorem scanLoop_exited {entries : List Dirent} (gone : m.exited = true) :
    scanLoop entries m = m := by
  induction entries with
  | nil => rfl
  | cons d ds ih =>
    have skip : scanEntry m d.name d.ino d.tv = m := by
      rw [scanEntry, if_pos gone]
    rw [scanLoop, List.foldl_cons, skip]
    exact ih

private theorem scanLoop_alive {entries : List Dirent} (spool : Spool m.disk.fs)
    (living : m.exited = false) (alive : (scanLoop entries m).exited = false) :
    ∃ added p trail, Accepted m.disk.fs p.fs (added.map Msg.inode) ∧
      scanLoop entries m = (m.onDisk p trail).put IN
        { m.quelist IN with msg := (m.quelist IN).msg ++ added } := by
  induction entries generalizing m with
  | nil =>
    refine ⟨[], m.disk, m.trail, Accepted.none _, ?_⟩
    simp [scanLoop, QueueState.put, QueueState.onDisk]
  | cons d ds ih =>
    have step : scanLoop (d :: ds) m = scanLoop ds (scanEntry m d.name d.ino d.tv) := rfl
    rw [step] at alive ⊢
    have first : (scanEntry m d.name d.ino d.tv).exited = false := by
      cases ended : (scanEntry m d.name d.ino d.tv).exited with
      | false => rfl
      | true =>
        rw [scanLoop_exited ended] at alive
        rw [alive] at ended
        cases ended
    rcases scanEntry_alive spool living first with
      same | ⟨k, p, trail, _, spool', links, result⟩
    · rw [same] at alive ⊢
      exact ih spool living alive
    · rw [result] at alive ⊢
      obtain ⟨added, p', trail', links', result'⟩ :=
        ih (m := (m.onDisk p trail).put IN (elemAdd (m.quelist IN) (elemNew k d.tv IN)))
          spool' living alive
      refine ⟨elemNew k d.tv IN :: added, p', trail', links.trans links', ?_⟩
      rw [result']
      simp [QueueState.put, QueueState.onDisk, elemAdd]

theorem scan_outcome {entries : List Dirent} {sorted : List Msg} (spool : Spool m.disk.fs)
    (living : m.exited = false)
    (order : QueueSort ((scanLoop entries m).quelist IN).msg sorted)
    (alive : (scanDrop entries sorted m).exited = false) :
    Outcome m (.scan entries sorted) (scanDrop entries sorted m) := by
  have looped : (scanLoop entries m).exited = false := by
    cases ended : (scanLoop entries m).exited with
    | false => rfl
    | true =>
      rw [scanDrop, if_pos ended, ended] at alive
      cases alive
  obtain ⟨added, p, trail, links, result⟩ := scanLoop_alive spool living looped
  rw [result, put_same] at order
  have dead : ¬ (scanLoop entries m).exited = true := by
    rw [looped]
    decide
  rw [scanDrop, if_neg dead]
  split
  · have again : (scanLoop entries m).put IN
          { (scanLoop entries m).quelist IN with msg := sorted } =
        (m.onDisk p trail).put IN { m.quelist IN with msg := sorted } := by
      rw [result]
      simp [QueueState.put]
    rw [again]
    exact .scanned links order.1
  · rw [result]
    exact .scanned links (List.Perm.refl _)

theorem sendNext_cases (q : Nat) (m : QueueState) :
    sendNext q m = m ∨ ∃ i, mayTransmit m q winsize ∧ getFilename m q = some i ∧
      sendNext q m = sendFile q i m := by
  by_cases may : mayTransmit m q winsize
  · cases next : getFilename m q with
    | none =>
      left
      simp only [sendNext, if_pos may, next]
    | some i =>
      right
      refine ⟨i, may, rfl, ?_⟩
      simp only [sendNext, if_pos may, next]
  · left
    rw [sendNext, if_neg may]

private theorem sendNext_outcome {e : QueueEvent} (spool : Spool m.disk.fs)
    (queue : 1 ≤ q ∧ q ≤ m.countq) (cause : e = .sendIn ∧ q = IN ∨ e = .flushSend q)
    (alive : (sendNext q m).exited = false) : Outcome m e (sendNext q m) := by
  rcases sendNext_cases q m with same | ⟨i, may, next, result⟩
  · rw [same]
    apply Outcome.idle
    rintro i code now rfl
    rcases cause with ⟨impossible, _⟩ | impossible
    · cases impossible
    · cases impossible
  · rw [result] at alive ⊢
    obtain ⟨p, trail, links, result⟩ := sendFile_alive spool queue.1 alive
    rw [result]
    exact .sent queue may next links cause

private theorem timer_outcome (spool : Spool m.disk.fs)
    (timers : ∀ n ∈ m.timerheap.nodes, 2 ≤ n.indque ∧ n.indque ≤ m.countq)
    (alive : (timerExpired m).exited = false) : Outcome m .expire (timerExpired m) := by
  have silent : ∀ i code now, QueueEvent.expire ≠ .response i code now := by
    intro i code now impossible
    cases impossible
  unfold timerExpired at alive ⊢
  cases min : heapMin m.timerheap with
  | none => exact .idle silent
  | some node =>
    rw [min] at alive
    simp only at alive ⊢
    have member : node ∈ m.timerheap.nodes := List.mem_of_getElem? min
    obtain ⟨queue, range⟩ := timers node member
    cases found : elemFind (m.quelist node.indque) (definode node.inode) with
    | none => exact .expired min (elemFind_none found)
    | some n =>
      rw [found] at alive
      simp only at alive ⊢
      split
      · rename_i may
        rw [if_pos may] at alive
        have sent : (sendFile node.indque (definode node.inode) m).exited = false := by
          cases ended : (sendFile node.indque (definode node.inode) m).exited with
          | false => rfl
          | true =>
            rw [if_pos ended, ended] at alive
            cases alive
        obtain ⟨p, trail, links, result⟩ := sendFile_alive spool (by omega) sent
        have living : ¬ (sendFile node.indque (definode node.inode) m).exited = true := by
          rw [sent]
          decide
        rw [if_neg living, result]
        exact .fired min may links
      · exact .idle silent

theorem queueStep_outcome {e : QueueEvent} (spool : Spool m.disk.fs) (synced : Synced m)
    (happens : queueStep m e = some m') (alive : m'.exited = false) : Outcome m e m' := by
  obtain ⟨living, performs⟩ := queueStep_performs happens
  cases performs with
  | arrive i fresh =>
    refine .arrived (has_concat m.disk.fs .drop i) ?_
    intro d here
    exact fresh _ here rfl
  | signal up => exact .idle fun _ _ _ impossible => by cases impossible
  | scan entries sorted listing sort => exact scan_outcome spool living sort alive
  | sendIn => exact sendNext_outcome spool ⟨Nat.le_refl _, synced.incoming⟩ (.inl ⟨rfl, rfl⟩) alive
  | flushSend q queue => exact sendNext_outcome spool queue (.inr rfl) alive
  | expire => exact timer_outcome spool synced.timers alive
  | response i code now => exact response_outcome spool synced.active alive

theorem outcome_countq {f : QueueEvent} (outcome : Outcome m f m') :
    m'.countq = m.countq := by
  cases outcome with
  | idle => rfl
  | arrived => rfl
  | scanned => rfl
  | sent => rfl
  | expired => rfl
  | fired => rfl
  | stray => rfl
  | confirmed => rfl
  | settled => rfl
  | requeued => rfl

end Inversion

/-- A step comes to COPYFILE for a message. -/
inductive Attempt (m : QueueState) : QueueEvent → Nat → Ino → Prop
  | next {e : QueueEvent} {q : Nat} {i : Ino} (queue : 1 ≤ q ∧ q ≤ m.countq)
      (may : mayTransmit m q winsize) (file : getFilename m q = some i)
      (cause : e = .sendIn ∧ q = IN ∨ e = .flushSend q) : Attempt m e q i
  | timer {node : HeapNode} (min : heapMin m.timerheap = some node)
      (listed : definode node.inode ∈ (m.quelist node.indque).inodes) :
      Attempt m .expire node.indque (definode node.inode)

section Copies

variable {m m' : QueueState} {e : QueueEvent} {q : Nat} {i : Ino}

private theorem perform_copies {acts : List Action} {commit : QueueState → QueueState}
    (lists : ∀ x, (commit x).copies = x.copies) :
    (perform acts commit m).copies = m.copies := by
  induction acts generalizing m with
  | nil => exact lists m
  | cons a rest ih =>
    unfold perform
    split
    · rfl
    · exact ih

theorem sendFile_copies : (sendFile q i m).copies =
    m.copies ++ [⟨q, i, decide (i ∈ (m.quelist ACT).inodes), copyError q i m.disk.fs⟩] :=
  perform_copies fun _ => rfl

private theorem sendNext_copies (queue : 1 ≤ q ∧ q ≤ m.countq)
    (cause : e = .sendIn ∧ q = IN ∨ e = .flushSend q) :
    (sendNext q m).copies = m.copies ∨ ∃ i, Attempt m e q i ∧ (sendNext q m).copies =
      m.copies ++ [⟨q, i, decide (i ∈ (m.quelist ACT).inodes), copyError q i m.disk.fs⟩] := by
  rcases sendNext_cases q m with same | ⟨i, may, file, result⟩
  · left
    rw [same]
  · right
    rw [result]
    exact ⟨i, .next queue may file cause, sendFile_copies⟩

private theorem scanLoop_copies {entries : List Dirent} :
    (scanLoop entries m).copies = m.copies := by
  induction entries generalizing m with
  | nil => rfl
  | cons d ds ih =>
    refine (ih (m := scanEntry m d.name d.ino d.tv)).trans ?_
    unfold scanEntry
    split
    · rfl
    · split
      · refine perform_copies ?_
        intro x
        unfold takeIn
        split
        · rfl
        · rfl
      · rfl

private theorem scanDrop_copies {entries : List Dirent} {sorted : List Msg} :
    (scanDrop entries sorted m).copies = m.copies := by
  unfold scanDrop
  simp only
  split
  · exact scanLoop_copies
  · split
    · exact scanLoop_copies
    · exact scanLoop_copies

private theorem checkResponse_copies {code : Int} {now : Timeval} :
    (checkResponse i code now m).copies = m.copies := by
  unfold checkResponse
  split
  · rfl
  · split
    · rfl
    · simp only
      split
      · exact perform_copies fun _ => rfl
      · split
        · rfl
        · split
          · exact perform_copies fun _ => rfl
          · exact perform_copies fun _ => rfl

theorem queueStep_copies (incoming : 1 ≤ m.countq) (happens : queueStep m e = some m') :
    m'.copies = m.copies ∨ ∃ q i, Attempt m e q i ∧ m'.copies =
      m.copies ++ [⟨q, i, decide (i ∈ (m.quelist ACT).inodes), copyError q i m.disk.fs⟩] := by
  obtain ⟨_, performs⟩ := queueStep_performs happens
  cases performs with
  | arrive i fresh => exact .inl rfl
  | signal up => exact .inl rfl
  | scan entries sorted listing sort => exact .inl scanDrop_copies
  | sendIn =>
    rcases sendNext_copies ⟨Nat.le_refl _, incoming⟩ (.inl ⟨rfl, rfl⟩) with same | attempt
    · exact .inl same
    · exact .inr ⟨IN, attempt⟩
  | flushSend q queue =>
    rcases sendNext_copies queue (.inr rfl) with same | attempt
    · exact .inl same
    · exact .inr ⟨q, attempt⟩
  | expire =>
    unfold timerExpired
    cases min : heapMin m.timerheap with
    | none => exact .inl rfl
    | some node =>
      simp only
      cases found : elemFind (m.quelist node.indque) (definode node.inode) with
      | none => exact .inl rfl
      | some n =>
        simp only
        obtain ⟨elem, _, member, file⟩ := elemFind_some found
        have attempt : Attempt m .expire node.indque (definode node.inode) :=
          .timer min (file ▸ List.mem_map_of_mem member)
        split
        · right
          refine ⟨_, _, attempt, ?_⟩
          split
          · exact sendFile_copies
          · exact sendFile_copies
        · exact .inl rfl
  | response i code now => exact .inl checkResponse_copies

end Copies

end IecUtils.Queue.Effects
