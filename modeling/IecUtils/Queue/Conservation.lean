/- Module: IecUtils/Queue/Conservation
   source: quemngr/quemngr.c, quemngr/quecontrol.c, quemngr/utils.c
   digest: No run loses or doubles a message, and the lists agree with the directories. -/

import IecUtils.Queue.Effects

set_option autoImplicit false
set_option relaxedAutoImplicit false

namespace IecUtils.Queue.Conservation

open IecUtils.Foundation.LinkTable
open IecUtils.Foundation.Transition
open IecUtils.Queue.Files
open IecUtils.Queue.Heap
open IecUtils.Queue.Control
open IecUtils.Queue.Manager
open IecUtils.Queue.Effects

/-- A point in order: the messages held are those with a link outside `act`. -/
structure Accounts (p : Point) : Prop where
  spool : Spool p.fs
  held : ∀ i, i ∈ p.held ↔ ∃ d, d ≠ .act ∧ Has p.fs d i

/-- A link in `act` belongs to a message that waits in a queue. -/
def Queued (fs : Fs) : Prop := ∀ i, Has fs .act i → ∃ q, Has fs (.que q) i

/-- The file calls the operations make at a point: a message leaves the queues only
after its link in `act`. -/
inductive Fair (p : Point) : Action → Prop
  | copy (q : Nat) (i : Ino) : Fair p { call := .link (.que q, ld i) (.act, ld i) }
  | release (i : Ino) : Fair p { call := .unlink (.act, ld i) }
  | deliver (q : Nat) (i : Ino) (idle : ¬ Has p.fs .act i) :
      Fair p { call := .unlink (.que q, ld i), delivers := some i }
  | move {d e : Dir} (name : Int) (outside : d ≠ .act) (outside' : e ≠ .act) (apart : d ≠ e)
      (quiet : (∃ q, e = .que q) ∨ ∀ i : Ino, name = i.toNat → ¬ Has p.fs .act i) :
      Fair p { call := .rename (d, name) (e, name) }

section Points

variable {p : Point} {i : Ino}

theorem Accounts.homes_length (h : Accounts p) (i : Ino) :
    (homes p.fs i).length = if i ∈ p.held then 1 else 0 := by
  by_cases member : i ∈ p.held
  · obtain ⟨d, outside, here⟩ := (h.held i).mp member
    rw [if_pos member]
    exact h.spool.homes_length here outside
  · rw [if_neg member, List.length_eq_zero_iff]
    apply List.filter_eq_nil_iff.mpr
    intro l present keeps
    obtain ⟨rfl, outside⟩ : l.file = i ∧ l.dir ≠ .act := by simpa using keeps
    exact member ((h.held l.file).mpr ⟨l.dir, outside, h.spool.has_of_mem present⟩)

private theorem after_held {a : Action} {fs : Fs} (quiet : a.delivers = none) :
    (p.after a fs).held = p.held := by
  unfold Point.after
  rw [quiet]
  simp

theorem Accounts.after {a : Action} {fs : Fs} (h : Accounts p) (fair : Fair p a)
    (done : a.call.exec p.fs = .ok fs) : Accounts (p.after a fs) := by
  cases fair with
  | copy q i =>
    obtain ⟨_, _, spool, links⟩ := h.spool.copy done
    refine ⟨spool, fun j => ?_⟩
    rw [after_held rfl, h.held]
    refine exists_congr fun d => and_congr_right fun outside => ?_
    simp only [Point.after, links, outside, false_and, or_false]
  | release i =>
    obtain ⟨_, spool, links⟩ := h.spool.unlinked done
    refine ⟨spool, fun j => ?_⟩
    rw [after_held rfl, h.held]
    refine exists_congr fun d => and_congr_right fun outside => ?_
    simp only [Point.after, links, outside, false_and, not_false_eq_true, and_true]
  | deliver q i _ =>
    obtain ⟨here, spool, links⟩ := h.spool.unlinked done
    refine ⟨spool, fun j => ?_⟩
    have kept : j ∈ (p.after { call := .unlink (.que q, ld i), delivers := some i } fs).held ↔
        j ∈ p.held ∧ j ≠ i := by
      simp only [Point.after, List.mem_filter, ne_eq, Option.some.injEq, decide_eq_true_eq]
      exact and_congr_right fun _ => not_congr eq_comm
    rw [kept, h.held]
    constructor
    · rintro ⟨⟨d, outside, there⟩, other⟩
      exact ⟨d, outside, (links d j).mpr ⟨there, fun same => other same.2⟩⟩
    · rintro ⟨d, outside, there⟩
      obtain ⟨before, apart⟩ := (links d j).mp there
      refine ⟨⟨d, outside, before⟩, ?_⟩
      rintro rfl
      exact apart ⟨h.spool.once before here outside (fun active => by cases active), rfl⟩
  | @move d e name outside outside' apart _ =>
    obtain ⟨i, _, here, spool, links⟩ := h.spool.moved outside outside' apart done
    refine ⟨spool, fun j => ?_⟩
    rw [after_held rfl, h.held]
    constructor
    · rintro ⟨f, out, there⟩
      by_cases same : f = d ∧ j = i
      · exact ⟨e, outside', (links e j).mpr (.inr ⟨rfl, same.2⟩)⟩
      · exact ⟨f, out, (links f j).mpr (.inl ⟨there, same⟩)⟩
    · rintro ⟨f, out, there⟩
      rcases (links f j).mp there with ⟨before, _⟩ | ⟨_, rfl⟩
      · exact ⟨f, out, before⟩
      · exact ⟨d, outside, here⟩

private theorem queued_after {a : Action} {fs : Fs} (spool : Spool p.fs) (h : Queued p.fs)
    (fair : Fair p a) (done : a.call.exec p.fs = .ok fs) : Queued fs := by
  intro j active
  cases fair with
  | copy q i =>
    obtain ⟨here, _, _, links⟩ := spool.copy done
    rcases (links _ _).mp active with before | ⟨_, rfl⟩
    · obtain ⟨r, waits⟩ := h j before
      exact ⟨r, (links _ _).mpr (.inl waits)⟩
    · exact ⟨q, (links _ _).mpr (.inl here)⟩
  | release i =>
    obtain ⟨_, _, links⟩ := spool.unlinked done
    obtain ⟨r, waits⟩ := h j ((links _ _).mp active).1
    refine ⟨r, (links _ _).mpr ⟨waits, ?_⟩⟩
    rintro ⟨impossible, _⟩
    cases impossible
  | deliver q i idle =>
    obtain ⟨_, _, links⟩ := spool.unlinked done
    obtain ⟨before, _⟩ := (links _ _).mp active
    obtain ⟨r, waits⟩ := h j before
    refine ⟨r, (links _ _).mpr ⟨waits, ?_⟩⟩
    rintro ⟨_, rfl⟩
    exact idle before
  | @move d e name outside outside' apart quiet =>
    obtain ⟨i, named, here, _, links⟩ := spool.moved outside outside' apart done
    rcases (links _ _).mp active with ⟨before, _⟩ | ⟨impossible, _⟩
    · obtain ⟨r, waits⟩ := h j before
      by_cases same : Dir.que r = d ∧ j = i
      · obtain ⟨_, rfl⟩ := same
        rcases quiet with ⟨q, rfl⟩ | quiet
        · exact ⟨q, (links _ _).mpr (.inr ⟨rfl, rfl⟩)⟩
        · exact absurd before (quiet j named)
      · exact ⟨r, (links _ _).mpr (.inl ⟨waits, same⟩)⟩
    · exact absurd impossible.symm outside'

private theorem accounts_arrival (h : Accounts p) (fresh : ∀ l ∈ p.fs, l.file ≠ i) :
    Accounts ⟨p.fs ++ [⟨.drop, i.toNat, i⟩], i :: p.held⟩ := by
  have links := has_concat p.fs .drop i
  refine ⟨⟨?_, ?_, ?_⟩, ?_⟩
  · refine h.spool.keyed.snoc (.drop, (i.toNat : Int)) ?_ i
    intro l member here
    have named := h.spool.named l member
    have same : l.name = i.toNat := congrArg Prod.snd here
    apply fresh l member
    apply UInt64.toNat_inj.mp
    omega
  · intro l member
    rcases List.mem_append.mp member with old | new
    · exact h.spool.named l old
    · obtain rfl := List.mem_singleton.mp new
      rfl
  · intro d e j first second outside outside'
    rcases (links d j).mp first with old | ⟨rfl, rfl⟩
    · rcases (links e j).mp second with old' | ⟨rfl, rfl⟩
      · exact h.spool.once old old' outside outside'
      · exact absurd rfl (fresh _ old)
    · rcases (links e j).mp second with old' | ⟨rfl, _⟩
      · exact absurd rfl (fresh _ old')
      · rfl
  · intro j
    rw [List.mem_cons, h.held]
    constructor
    · rintro (rfl | ⟨d, outside, here⟩)
      · exact ⟨.drop, by decide, (links _ _).mpr (.inr ⟨rfl, rfl⟩)⟩
      · exact ⟨d, outside, (links _ _).mpr (.inl here)⟩
    · rintro ⟨d, outside, here⟩
      rcases (links d j).mp here with old | ⟨_, rfl⟩
      · exact .inr ⟨d, outside, old⟩
      · exact .inl rfl

end Points

/-- Every point the process has passed is in order. -/
structure Recorded (m : QueueState) : Prop where
  now : Accounts m.disk
  before : ∀ p ∈ m.trail, Accounts p

/-- The process goes from one state to another by calls allowed at their points and by
changes to its variables. -/
inductive Calls (ok : Point → Action → Prop) : QueueState → QueueState → Prop
  | lists {m m' : QueueState} (disk : m'.disk = m.disk) (trail : m'.trail = m.trail) :
      Calls ok m m'
  | call {m m' : QueueState} {a : Action} {fs : Fs} (allowed : ok m.disk a)
      (done : a.call.exec m.disk.fs = .ok fs)
      (rest : Calls ok (m.onDisk (m.disk.after a fs) (m.trail ++ [m.disk.after a fs])) m') :
      Calls ok m m'

section Trail

variable {m m' m'' : QueueState} {ok : Point → Action → Prop}

theorem Recorded.congr (h : Recorded m) (disk : m'.disk = m.disk) (trail : m'.trail = m.trail) :
    Recorded m' := by
  refine ⟨disk ▸ h.now, fun p member => h.before p ?_⟩
  rw [← trail]
  exact member

private theorem Recorded.pass {p : Point} (h : Recorded m) (next : Accounts p) :
    Recorded (m.onDisk p (m.trail ++ [p])) := by
  refine ⟨next, ?_⟩
  intro r member
  rcases List.mem_append.mp member with old | new
  · exact h.before r old
  · rw [List.mem_singleton.mp new]
    exact next

private theorem Calls.congr (calls : Calls ok m m') (disk : m''.disk = m'.disk)
    (trail : m''.trail = m'.trail) : Calls ok m m'' := by
  induction calls with
  | lists disk' trail' => exact .lists (disk.trans disk') (trail.trans trail')
  | call allowed done _ ih => exact .call allowed done (ih disk trail)

private theorem Calls.from_congr (m' : QueueState) (disk : m'.disk = m.disk)
    (trail : m'.trail = m.trail) (calls : Calls ok m' m'') : Calls ok m m'' := by
  induction calls generalizing m with
  | lists disk' trail' => exact .lists (disk'.trans disk) (trail'.trans trail)
  | @call x y a fs allowed done _ ih =>
    rw [disk] at done allowed
    refine .call allowed done (ih ?_ ?_)
    · simp only [QueueState.onDisk, disk]
    · simp only [QueueState.onDisk, disk, trail]

private theorem Calls.trans (first : Calls ok m m') (second : Calls ok m' m'') :
    Calls ok m m'' := by
  induction first with
  | lists disk trail => exact Calls.from_congr _ disk trail second
  | call allowed done _ ih => exact .call allowed done (ih second)

private theorem Calls.recorded (calls : Calls ok m m') (fair : ∀ p a, ok p a → Fair p a)
    (h : Recorded m) : Recorded m' := by
  induction calls with
  | lists disk trail => exact h.congr disk trail
  | call allowed done _ ih => exact ih (h.pass (h.now.after (fair _ _ allowed) done))

private theorem Calls.queued (calls : Calls ok m m') (fair : ∀ p a, ok p a → Fair p a)
    (h : Recorded m) (now : Queued m.disk.fs) (before : ∀ p ∈ m.trail, Queued p.fs) :
    Queued m'.disk.fs ∧ ∀ p ∈ m'.trail, Queued p.fs := by
  induction calls with
  | lists disk trail =>
    rw [disk, trail]
    exact ⟨now, before⟩
  | @call x y a fs allowed done _ ih =>
    have next := queued_after h.now.spool now (fair _ _ allowed) done
    refine ih (h.pass (h.now.after (fair _ _ allowed) done)) next ?_
    intro p member
    rcases List.mem_append.mp member with old | new
    · exact before p old
    · rw [List.mem_singleton.mp new]
      exact next

private theorem Calls.passed (calls : Calls ok m m') (here : m.disk ∈ m.trail) :
    m'.disk ∈ m'.trail ∧ m.trail ⊆ m'.trail := by
  induction calls with
  | lists disk trail =>
    rw [disk, trail]
    exact ⟨here, List.Subset.refl _⟩
  | call _ _ _ ih =>
    obtain ⟨last, grows⟩ := ih (List.mem_append_right _ (List.mem_singleton_self _))
    exact ⟨last, fun p member => grows (List.mem_append_left _ member)⟩

private theorem Calls.held {i : Ino} (calls : Calls ok m m')
    (quiet : ∀ p a, ok p a → a.delivers ≠ some i) (member : i ∈ m.disk.held) :
    i ∈ m'.disk.held := by
  induction calls with
  | lists disk _ =>
    rw [disk]
    exact member
  | call allowed done _ ih =>
    refine ih (List.mem_filter.mpr ⟨member, ?_⟩)
    simpa using quiet _ _ allowed

private theorem Calls.held_sublist (calls : Calls ok m m') :
    m'.disk.held.Sublist m.disk.held := by
  induction calls with
  | lists disk _ => rw [disk]
  | call _ _ _ ih => exact ih.trans List.filter_sublist

variable {commit : QueueState → QueueState}

private theorem perform_calls {a : Action} {rest : List Action} (allowed : ok m.disk a)
    (later : ∀ fs, a.call.exec m.disk.fs = .ok fs →
      Calls ok (m.onDisk (m.disk.after a fs) (m.trail ++ [m.disk.after a fs]))
        (perform rest commit
          (m.onDisk (m.disk.after a fs) (m.trail ++ [m.disk.after a fs])))) :
    Calls ok m (perform (a :: rest) commit m) := by
  rw [perform]
  split
  · exact .lists rfl rfl
  · rename_i fs done
    exact .call allowed done (later fs done)

private theorem perform_one {a : Action} (allowed : ok m.disk a)
    (lists : ∀ x, (commit x).disk = x.disk ∧ (commit x).trail = x.trail) :
    Calls ok m (perform [a] commit m) :=
  perform_calls allowed fun _ _ => .lists (lists _).1 (lists _).2

private theorem perform_two {a b : Action} (first : ok m.disk a)
    (second : ∀ fs, a.call.exec m.disk.fs = .ok fs → ok (m.disk.after a fs) b)
    (lists : ∀ x, (commit x).disk = x.disk ∧ (commit x).trail = x.trail) :
    Calls ok m (perform [a, b] commit m) :=
  perform_calls first fun fs done => perform_one (second fs done) lists

end Trail

/-- The calls an event allows: a delivery is the answer 0 for a message in flight. -/
structure Allowed (m : QueueState) (e : QueueEvent) (p : Point) (a : Action) : Prop where
  fair : Fair p a
  delivery : ∀ i, a.delivers = some i →
    (∃ now, e = .response i 0 now) ∧ i ∈ (m.quelist ACT).inodes

section Operations

variable {m m' : QueueState} {q : Nat} {i : Ino} {e : QueueEvent}

private theorem Allowed.quiet {p : Point} {a : Action} (fair : Fair p a)
    (none : a.delivers = none) : Allowed m e p a := by
  refine ⟨fair, fun i some => ?_⟩
  rw [none] at some
  cases some

private theorem sendFile_calls {x : QueueState} (queue : 1 ≤ q) :
    Calls (Allowed x e) m (sendFile q i m) := by
  refine Calls.from_congr (m.logCopy q i (copyError q i m.disk.fs)) rfl rfl ?_
  refine perform_one (Allowed.quiet ?_ rfl) fun _ => ⟨rfl, rfl⟩
  rw [copyCall, dirOf_queue queue]
  exact .copy q i

private theorem sendNext_calls {x : QueueState} (queue : 1 ≤ q) :
    Calls (Allowed x e) m (sendNext q m) := by
  unfold sendNext
  split
  · split
    · exact .lists rfl rfl
    · exact sendFile_calls queue
  · exact .lists rfl rfl

private theorem timerExpired_calls {x : QueueState}
    (timers : ∀ n ∈ m.timerheap.nodes, 2 ≤ n.indque ∧ n.indque ≤ m.countq) :
    Calls (Allowed x e) m (timerExpired m) := by
  unfold timerExpired
  split
  · exact .lists rfl rfl
  · rename_i node min
    have queue := (timers node (List.mem_of_getElem? min)).1
    simp only
    split
    · exact .lists rfl rfl
    · split
      · have sent : Calls (Allowed x e) m (sendFile node.indque (definode node.inode) m) :=
          sendFile_calls (by omega)
        split
        · exact sent
        · exact sent.congr rfl rfl
      · exact .lists rfl rfl

private theorem scanEntry_calls {x : QueueState} {name : Int} {tv : Timeval} :
    Calls (Allowed x e) m (scanEntry m name i tv) := by
  unfold scanEntry
  split
  · exact .lists rfl rfl
  · split
    · refine perform_one (Allowed.quiet ?_ rfl) ?_
      · exact .move name (by decide) (by decide) (by decide) (.inl ⟨IN, rfl⟩)
      · intro y
        unfold takeIn
        split
        · exact ⟨rfl, rfl⟩
        · exact ⟨rfl, rfl⟩
    · exact .lists rfl rfl

private theorem scanLoop_calls {x : QueueState} {entries : List Dirent} :
    Calls (Allowed x e) m (scanLoop entries m) := by
  induction entries generalizing m with
  | nil => exact .lists rfl rfl
  | cons d ds ih => exact scanEntry_calls.trans ih

private theorem scanDrop_calls {x : QueueState} {entries : List Dirent} {sorted : List Msg} :
    Calls (Allowed x e) m (scanDrop entries sorted m) := by
  have looped : Calls (Allowed x e) m (scanLoop entries m) := scanLoop_calls
  unfold scanDrop
  simp only
  split
  · exact looped
  · split
    · exact looped.congr rfl rfl
    · exact looped

private theorem checkResponse_calls {x : QueueState} {code : Int} {now : Timeval}
    (same : x.quelist = m.quelist) (spool : Spool m.disk.fs)
    (active : ∀ e ∈ (m.quelist ACT).msg, 1 ≤ e.state ∧ e.state ≤ m.countq) :
    Calls (Allowed x (.response i code now)) m (checkResponse i code now m) := by
  have release : Allowed x (.response i code now) m.disk { call := .unlink (.act, ld i) } :=
    Allowed.quiet (.release i) rfl
  have idle (fs : Fs) (done : (Call.unlink (.act, ld i)).exec m.disk.fs = .ok fs) :
      ¬ Has fs .act i := by
    obtain ⟨_, _, links⟩ := spool.unlinked done
    intro left
    exact ((links _ _).mp left).2 ⟨rfl, rfl⟩
  unfold checkResponse
  split
  · exact .lists rfl rfl
  · rename_i indelem found
    split
    · exact .lists rfl rfl
    · rename_i elem entry
      have queue := (active elem (List.mem_of_getElem? entry)).1
      have next : Dir.que elem.state ≠ .que (elem.state + 1) := by
        intro equal
        injection equal with equal
        omega
      simp only [dirOf_queue queue, dirOf_queue (Nat.le_add_left 1 elem.state)]
      split
      · rename_i delivered
        refine perform_two release ?_ fun _ => ⟨rfl, rfl⟩
        intro fs done
        refine ⟨.deliver _ i (idle fs done), ?_⟩
        intro j own
        obtain rfl := Option.some.inj own
        obtain ⟨_, _, present, file⟩ := elemFind_some found
        rw [delivered, same]
        exact ⟨⟨now, rfl⟩, file ▸ List.mem_map_of_mem present⟩
      · split
        · exact .lists rfl rfl
        · split
          · refine perform_two release ?_ fun _ => ⟨rfl, rfl⟩
            intro fs done
            refine Allowed.quiet (.move _ ?_ (by decide) ?_ (.inr ?_)) rfl
            · exact fun impossible => by cases impossible
            · exact fun impossible => by cases impossible
            · intro j named linked
              obtain ⟨_, spool', _⟩ := spool.unlinked done
              have path : (⟨.act, ld i, j⟩ : Entry Dir Int Ino) ∈ fs := by
                rw [named]
                exact linked
              obtain ⟨_, _, left⟩ := spool'.has_of_path path
              exact idle fs done left
          · refine perform_two release ?_ fun _ => ⟨rfl, rfl⟩
            intro fs done
            refine Allowed.quiet (.move _ ?_ ?_ next (.inl ⟨_, rfl⟩)) rfl
            · exact fun impossible => by cases impossible
            · exact fun impossible => by cases impossible

private theorem queueStep_calls (spool : Spool m.disk.fs) (synced : Synced m) (happens : queueStep m e = some m') :
    (∃ i, (∀ l ∈ m.disk.fs, l.file ≠ i) ∧ m' = dropFile i m ∧ e = .arrive i) ∨
      Calls (Allowed m e) m m' := by
  obtain ⟨_, performs⟩ := queueStep_performs happens
  cases performs with
  | arrive i fresh => exact .inl ⟨i, fresh, rfl, rfl⟩
  | signal up => exact .inr (.lists rfl rfl)
  | scan entries sorted listing sort => exact .inr scanDrop_calls
  | sendIn => exact .inr (sendNext_calls (Nat.le_refl 1))
  | flushSend q queue => exact .inr (sendNext_calls queue.1)
  | expire => exact .inr (timerExpired_calls synced.timers)
  | response i code now =>
    have calls : Calls (Allowed m (.response i code now)) (m.answer i code)
        (checkResponse i code now (m.answer i code)) :=
      checkResponse_calls rfl spool synced.active
    exact .inr (Calls.from_congr (m.answer i code) rfl rfl calls)

theorem queueStep_recorded (h : Recorded m) (synced : Synced m)
    (happens : queueStep m e = some m') : Recorded m' := by
  rcases queueStep_calls h.now.spool synced happens with ⟨i, fresh, rfl, _⟩ | calls
  · exact h.pass (accounts_arrival h.now fresh)
  · exact calls.recorded (fun _ _ allowed => allowed.fair) h

theorem queueStep_queued (h : Recorded m) (synced : Synced m)
    (happens : queueStep m e = some m') (now : Queued m.disk.fs)
    (before : ∀ p ∈ m.trail, Queued p.fs) :
    Queued m'.disk.fs ∧ ∀ p ∈ m'.trail, Queued p.fs := by
  rcases queueStep_calls h.now.spool synced happens with ⟨i, fresh, rfl, _⟩ | calls
  · have next : Queued (m.disk.fs ++ [⟨.drop, i.toNat, i⟩]) := by
      intro j linked
      rcases List.mem_append.mp linked with old | new
      · obtain ⟨q, waits⟩ := now j old
        exact ⟨q, List.mem_append_left _ waits⟩
      · cases List.mem_singleton.mp new
    refine ⟨next, ?_⟩
    intro p member
    rcases List.mem_append.mp member with old | new
    · exact before p old
    · rw [List.mem_singleton.mp new]
      exact next
  · exact calls.queued (fun _ _ allowed => allowed.fair) h now before

theorem queueStep_trail (spool : Spool m.disk.fs) (synced : Synced m)
    (happens : queueStep m e = some m') (here : m.disk ∈ m.trail) :
    m'.disk ∈ m'.trail ∧ m.trail ⊆ m'.trail := by
  rcases queueStep_calls spool synced happens with ⟨i, _, rfl, _⟩ | calls
  · exact ⟨List.mem_append_right _ (List.mem_singleton_self _), List.subset_append_left _ _⟩
  · exact calls.passed here

theorem delivered_of_lost (spool : Spool m.disk.fs) (synced : Synced m) (happens : queueStep m e = some m')
    (member : i ∈ m.disk.held) (lost : i ∉ m'.disk.held) :
    (∃ now, e = .response i 0 now) ∧ i ∈ (m.quelist ACT).inodes := by
  rcases queueStep_calls spool synced happens with ⟨j, _, rfl, _⟩ | calls
  · exact absurd (List.mem_cons_of_mem _ member) lost
  · by_contra other
    refine lost (calls.held ?_ member)
    intro p a allowed delivers
    exact other (allowed.delivery i delivers)

theorem queueStep_held (h : Recorded m) (synced : Synced m) (happens : queueStep m e = some m') :
    (∃ i, i ∉ m.disk.held ∧ m'.disk.held = i :: m.disk.held ∧ e = .arrive i) ∨
      m'.disk.held.Sublist m.disk.held ∧ ∀ i, e ≠ .arrive i := by
  have calls := queueStep_calls h.now.spool synced happens
  obtain ⟨_, performs⟩ := queueStep_performs happens
  cases performs with
  | arrive i fresh =>
    refine .inl ⟨i, fun member => ?_, rfl, rfl⟩
    obtain ⟨d, _, here⟩ := (h.now.held i).mp member
    exact fresh _ here rfl
  | _ =>
    rcases calls with ⟨_, _, _, arrives⟩ | calls
    · cases arrives
    · exact .inr ⟨calls.held_sublist, nofun⟩

end Operations

section Agreement

variable {m m' : QueueState} {e : QueueEvent}

private theorem mem_heapExtractMin {h : TimerHeap} {node n : HeapNode}
    (min : heapMin h = some node) (member : n ∈ (heapExtractMin h).nodes) : n ∈ h.nodes :=
  (heapExtractMin_perm min).subset (List.mem_cons_of_mem _ member)

private theorem agrees_congr {l l' : Msglist} {fs fs' : Fs} {q : Nat} (h : Agrees l fs q)
    (inodes : l'.inodes = l.inodes)
    (links : ∀ j, Has fs' (.que q) j ↔ Has fs (.que q) j) : Agrees l' fs' q := by
  refine ⟨?_, fun i => ?_⟩
  · rw [inodes]
    exact h.nodup
  · rw [inodes, links]
    exact h.listed i

private theorem synced_dispatch {q : Nat} {i : Ino} {p : Point} {trail : List Point}
    {error : Option Errno} (h : Synced m) (queue : 1 ≤ q ∧ q ≤ m.countq)
    (links : Copied m.disk.fs p.fs q i) :
    Synced (dispatch q i ((m.logCopy q i error).onDisk p trail)) := by
  refine ⟨h.incoming, ?_, ?_, h.timers⟩
  · intro r other range
    refine agrees_congr (h.agrees other range) (dispatch_inodes _ _ (queue_ne_act other)) ?_
    intro j
    refine (links.links _ _).trans (or_iff_left ?_)
    rintro ⟨impossible, _⟩
    cases impossible
  · intro e member
    rw [dispatch_act _ _ (queue_ne_act queue.1)] at member
    rcases List.mem_append.mp member with old | new
    · exact h.active e old
    · rw [List.mem_singleton.mp new]
      exact queue

private theorem agrees_scanned {fs fs' : Fs} {l : Msglist} {added new : List Msg}
    (spool : Spool fs) (h : Agrees l fs IN) (links : Accepted fs fs' (added.map Msg.inode))
    (perm : new.Perm (l.msg ++ added)) : Agrees { l with msg := new } fs' IN := by
  have inodes : (new.map Msg.inode).Perm (l.inodes ++ added.map Msg.inode) := by
    rw [Msglist.inodes, ← List.map_append]
    exact perm.map _
  refine ⟨inodes.nodup_iff.mpr ?_, fun j => ?_⟩
  · refine List.nodup_append.mpr ⟨h.nodup, links.nodup, ?_⟩
    rintro a old b added rfl
    have both := spool.once ((h.listed a).mp old) (links.here a added) (by decide) (by decide)
    cases both
  · refine inodes.mem_iff.trans ?_
    rw [List.mem_append, h.listed, links.links]
    refine or_congr ⟨?_, And.left⟩ (iff_and_self.mpr fun _ => rfl)
    intro old
    refine ⟨old, ?_⟩
    rintro ⟨impossible, _⟩
    cases impossible

private theorem agrees_left {fs fs' : Fs} {l l' : Msglist} {s : Nat} {i : Ino}
    {dst : Option Dir} (h : Agrees l fs s) (links : Departs fs fs' s i dst)
    (away : dst ≠ some (.que s)) (inodes : l'.inodes = l.inodes.erase i) :
    Agrees l' fs' s := by
  refine ⟨?_, fun j => ?_⟩
  · rw [inodes]
    exact h.nodup.erase i
  · rw [inodes, h.nodup.mem_erase_iff, h.listed, links.links]
    constructor
    · rintro ⟨other, here⟩
      exact .inl ⟨here, fun both => other both.1⟩
    · rintro (⟨here, kept⟩ | ⟨_, there⟩)
      · exact ⟨fun same => kept ⟨same, .inr rfl⟩, here⟩
      · exact absurd there away

private theorem departs_other {fs fs' : Fs} {s r : Nat} {i : Ino} {dst : Option Dir}
    (links : Departs fs fs' s i dst) (apart : r ≠ s) (away : dst ≠ some (.que r)) (j : Ino) :
    Has fs' (.que r) j ↔ Has fs (.que r) j := by
  rw [links.links]
  constructor
  · rintro (⟨here, _⟩ | ⟨_, there⟩)
    · exact here
    · exact absurd there away
  · intro here
    refine .inl ⟨here, ?_⟩
    rintro ⟨_, active | same⟩
    · cases active
    · injection same with same
      exact apart same

private theorem agrees_joined {fs fs' : Fs} {l : Msglist} {s : Nat} {i : Ino} (spool : Spool fs)
    (h : Agrees l fs (s + 1)) (links : Departs fs fs' s i (some (.que (s + 1)))) :
    Agrees (elemAdd l (elemNew i ⟨0, 0⟩ (s + 1))) fs' (s + 1) := by
  have absent : i ∉ l.inodes := by
    intro member
    have both := spool.once ((h.listed i).mp member) links.here (fun active => by cases active)
      (fun active => by cases active)
    injection both with both
    omega
  refine ⟨?_, fun j => ?_⟩
  · rw [elemAdd_inodes]
    refine List.nodup_append.mpr ⟨h.nodup, List.nodup_singleton _, ?_⟩
    rintro a member b new rfl
    rw [List.mem_singleton.mp new] at member
    exact absent member
  · rw [elemAdd_inodes, List.mem_append, List.mem_singleton, h.listed, links.links]
    refine or_congr ⟨?_, And.left⟩ (iff_self_and.mpr fun _ => rfl)
    intro here
    refine ⟨here, ?_⟩
    rintro ⟨rfl, active | same⟩
    · cases active
    · injection same with same
      omega

private theorem synced_scanned {added new : List Msg} {p : Point} {trail : List Point}
    (spool : Spool m.disk.fs) (h : Synced m)
    (links : Accepted m.disk.fs p.fs (added.map Msg.inode))
    (perm : new.Perm ((m.quelist IN).msg ++ added)) :
    Synced ((m.onDisk p trail).put IN { m.quelist IN with msg := new }) := by
  refine ⟨h.incoming, ?_, ?_, h.timers⟩
  · intro q queue range
    by_cases same : q = IN
    · subst same
      rw [put_same]
      exact agrees_scanned spool (h.agrees queue range) links perm
    · rw [put_other _ _ same]
      refine agrees_congr (h.agrees queue range) rfl fun j => ?_
      refine (links.links _ _).trans ?_
      constructor
      · rintro (⟨here, _⟩ | ⟨impossible, _⟩)
        · exact here
        · injection impossible with impossible
          exact absurd impossible same
      · intro here
        refine .inl ⟨here, ?_⟩
        rintro ⟨impossible, _⟩
        cases impossible
  · intro elem member
    rw [put_other _ _ (by decide)] at member
    exact h.active elem member

private theorem synced_settled {elem : Msg} {code : Int} {p : Point} {trail : List Point}
    {dst : Option Dir} (h : Synced m) (member : elem ∈ (m.quelist ACT).msg)
    (links : Departs m.disk.fs p.fs elem.state elem.inode dst)
    (outside : ∀ q, dst ≠ some (.que q)) :
    Synced (settle elem.state elem.inode ((m.answer elem.inode code).onDisk p trail)) := by
  have low := (h.active elem member).1
  refine ⟨h.incoming, ?_, ?_, h.timers⟩
  · intro q queue range
    rw [settle_queue _ _ (queue_ne_act queue)]
    split
    · rename_i same
      subst same
      exact agrees_left (h.agrees queue range) links (outside _) (elemDel_inodes _ _)
    · rename_i apart
      exact agrees_congr (h.agrees queue range) rfl (departs_other links apart (outside _))
  · intro other entry
    rw [settle_act _ _ (queue_ne_act low)] at entry
    exact h.active other (elemDel_subset _ _ entry)

private theorem synced_requeued {elem : Msg} {code : Int} {now : Timeval} {p : Point}
    {trail : List Point} (spool : Spool m.disk.fs) (h : Synced m)
    (member : elem ∈ (m.quelist ACT).msg) (below : elem.state < m.countq)
    (links : Departs m.disk.fs p.fs elem.state elem.inode (some (.que (elem.state + 1)))) :
    Synced (requeue elem.state elem.inode now ((m.answer elem.inode code).onDisk p trail)) := by
  have low := (h.active elem member).1
  refine ⟨h.incoming, ?_, ?_, ?_⟩
  · intro q queue range
    rw [requeue_queue _ _ _ (queue_ne_act queue)]
    split
    · rename_i same
      subst same
      refine agrees_left (h.agrees queue range) links ?_ (elemDel_inodes _ _)
      intro here
      injection here with here
      injection here with here
      omega
    · rename_i apart
      split
      · rename_i next
        subst next
        exact agrees_joined spool (h.agrees queue range) links
      · rename_i apart'
        refine agrees_congr (h.agrees queue range) rfl (departs_other links apart ?_)
        intro there
        injection there with there
        injection there with there
        exact apart' there.symm
  · intro other entry
    rw [requeue_act _ _ _ (queue_ne_act low)] at entry
    exact h.active other (elemDel_subset _ _ entry)
  · intro n inserted
    obtain ⟨key, perm⟩ := requeue_timers ((m.answer elem.inode code).onDisk p trail)
      elem.inode now
    rcases List.mem_cons.mp (perm.subset inserted) with rfl | old
    · exact ⟨Nat.succ_le_succ low, below⟩
    · exact h.timers n old

theorem outcome_synced (spool : Spool m.disk.fs) (h : Synced m) (outcome : Outcome m e m') :
    Synced m' := by
  cases outcome with
  | idle => exact h
  | arrived links =>
    refine ⟨h.incoming, ?_, h.active, h.timers⟩
    intro q queue range
    refine agrees_congr (h.agrees queue range) rfl fun j => ?_
    refine (links _ _).trans (or_iff_left ?_)
    rintro ⟨impossible, _⟩
    cases impossible
  | scanned links perm => exact synced_scanned spool h links perm
  | sent queue _ _ links => exact synced_dispatch h queue links
  | expired min =>
    refine ⟨h.incoming, h.agrees, h.active, ?_⟩
    intro n member
    exact h.timers n (mem_heapExtractMin min member)
  | @fired node p trail min _ links =>
    obtain ⟨low, range⟩ := h.timers node (List.mem_of_getElem? min)
    have sent : Synced (dispatch node.indque (definode node.inode)
        ((m.logCopy node.indque (definode node.inode) none).onDisk p trail)) :=
      synced_dispatch h ⟨by omega, range⟩ links
    refine ⟨sent.incoming, sent.agrees, sent.active, ?_⟩
    intro n member
    exact h.timers n (mem_heapExtractMin min member)
  | stray => exact ⟨h.incoming, h.agrees, h.active, h.timers⟩
  | @confirmed elem _ member =>
    obtain ⟨low, range⟩ := h.active elem member
    refine ⟨h.incoming, ?_, ?_, h.timers⟩
    · intro q queue range
      by_cases same : q = elem.state
      · subst same
        rw [put_same]
        exact agrees_congr (h.agrees queue range) rfl fun _ => Iff.rfl
      · rw [put_other _ _ same]
        exact h.agrees queue range
    · intro other entry
      rw [put_other _ _ (Ne.symm (queue_ne_act low))] at entry
      exact h.active other entry
  | settled member _ links away =>
    refine synced_settled h member links ?_
    rintro q rfl
    rcases away with impossible | impossible
    · cases impossible
    · cases impossible
  | requeued member _ _ below links => exact synced_requeued spool h member below links

end Agreement

/-- What every state of a run satisfies. -/
structure Conserved (m : QueueState) : Prop where
  recorded : Recorded m
  synced : m.exited = false → Synced m

section Runs

variable {m m' : QueueState} {e : QueueEvent} {fs : Fs} {deferred : Nat} {timeout : Nat → Nat}
  {restored : Nat → List Msg}

theorem queueStep_conserved (h : Conserved m) (happens : queueStep m e = some m') :
    Conserved m' := by
  have synced := h.synced (queueStep_living happens)
  refine ⟨queueStep_recorded h.recorded synced happens, fun alive => ?_⟩
  have spool := h.recorded.now.spool
  exact outcome_synced spool synced (queueStep_outcome spool synced happens alive)

theorem initqueue_conserved (spool : Spool fs) (lists : Restores fs deferred restored) :
    Conserved (initqueue fs deferred timeout restored) := by
  have start : Accounts ⟨fs, (fs.filter fun l => l.dir ≠ .act).map Entry.file⟩ := by
    refine ⟨spool, fun i => ?_⟩
    simp only [List.mem_map, List.mem_filter, ne_eq, decide_eq_true_eq]
    constructor
    · rintro ⟨l, ⟨member, outside⟩, rfl⟩
      exact ⟨l.dir, outside, spool.has_of_mem member⟩
    · rintro ⟨d, outside, here⟩
      exact ⟨_, ⟨here, outside⟩, rfl⟩
  refine ⟨⟨start, ?_⟩, fun _ => ⟨Nat.le_add_left _ _, ?_, ?_, ?_⟩⟩
  · intro p member
    rw [List.mem_singleton.mp member]
    exact start
  · intro q queue range
    have perm := lists q queue range
    have entries : ((initqueue fs deferred timeout restored).quelist q).inodes =
        (restored q).map Msg.inode := by
      simp [initqueue, Msglist.inodes, queue_ne_act queue]
    refine ⟨?_, fun i => ?_⟩
    · rw [entries, perm.nodup_iff]
      exact spool.files_nodup _
    · rw [entries, perm.mem_iff]
      exact spool.mem_files _ i
  · intro elem member
    simp [initqueue] at member
  · intro n member
    simp [initqueue, heapCreate] at member

/-- In every run from a spool in order, with any responses at all: between any two
file calls every message has exactly one link outside `act` until its delivery and
none after it; only the answer 0 for a message in flight delivers it; and while the
process lives each list holds exactly the inodes linked in its directory, each once. -/
theorem messages_conserved (spool : Spool fs) (lists : Restores fs deferred restored)
    {es : List QueueEvent}
    (reached : run queueStep (initqueue fs deferred timeout restored) es = some m) :
    (∀ p ∈ m.trail, ∀ i, (homes p.fs i).length = if i ∈ p.held then 1 else 0) ∧
      (∀ e m' i, queueStep m e = some m' → i ∈ m.disk.held → i ∉ m'.disk.held →
        (∃ now, e = .response i 0 now) ∧ i ∈ (m.quelist ACT).inodes) ∧
      (m.exited = false → ∀ q, 1 ≤ q → q ≤ m.countq →
        (m.quelist q).inodes.Nodup ∧
          ∀ i, i ∈ (m.quelist q).inodes ↔ Has m.disk.fs (.que q) i) := by
  have conserved : Conserved m :=
    run_invariant (fun _ _ _ inv happens => queueStep_conserved inv happens)
      (initqueue_conserved spool lists) reached
  refine ⟨?_, ?_, ?_⟩
  · intro p member i
    exact (conserved.recorded.before p member).homes_length i
  · intro e m' i happens member lost
    exact delivered_of_lost conserved.recorded.now.spool
      (conserved.synced (queueStep_living happens)) happens member lost
  · intro alive q queue range
    have agrees := (conserved.synced alive).agrees queue range
    exact ⟨agrees.nodup, agrees.listed⟩

theorem spool_nil : Spool [] := by
  refine ⟨List.nodup_nil, ?_, ?_⟩
  · intro l member
    cases member
  · intro d e i here
    cases here

theorem restores_nil (deferred : Nat) : Restores [] deferred fun _ => [] := by
  intro q _ _
  exact List.Perm.refl _

def delivery (i : Ino) : List QueueEvent :=
  [.arrive i, .scan [⟨i.toNat, i, ⟨7, 0⟩⟩] [⟨i, ⟨7, 0⟩, IN⟩], .sendIn, .response i 1 ⟨8, 0⟩,
    .response i 0 ⟨9, 0⟩]

theorem messages_conserved_delivery :
    ∃ m, run queueStep (initqueue [] 1 (fun _ => 60) fun _ => []) (delivery 5) = some m ∧
      m.trail.length = 6 ∧ m.disk.held = [] ∧ m.exited = false ∧
      ∀ p ∈ m.trail, ∀ i, (homes p.fs i).length = if i ∈ p.held then 1 else 0 := by
  have reached : run queueStep (initqueue [] 1 (fun _ => 60) fun _ => []) (delivery 5) =
      some _ := rfl
  exact ⟨_, reached, rfl, rfl, rfl, (messages_conserved spool_nil (restores_nil 1) reached).1⟩

end Runs

end IecUtils.Queue.Conservation
