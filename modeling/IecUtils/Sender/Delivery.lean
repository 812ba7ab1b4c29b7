/- Module: IecUtils/Sender/Delivery
   source: quemngr/quemngr.c, the main loop of scripts/asdusend, main of sockwrite/sockwrite.c
   digest: quemngr and the asdusend it started, joined by two pipes: nothing is taken off the spool without a transfer that succeeded, and the counters agree with what the sender has in hand. -/

import IecUtils.Queue.InFlight
import IecUtils.Sender.Sockwrite

set_option autoImplicit false
set_option relaxedAutoImplicit false

namespace IecUtils.Sender.Delivery

open IecUtils.Foundation.LinkTable
open IecUtils.Foundation.Transition
open IecUtils.Queue.Files
open IecUtils.Queue.Heap
open IecUtils.Queue.Control
open IecUtils.Queue.Manager
open IecUtils.Queue.Effects
open IecUtils.Queue.Conservation
open IecUtils.Queue.InFlight
open IecUtils.Queue.Responses
open IecUtils.Sender.Sockwrite

section Processes

/-- quemngr; the names written for asdusend and not read yet; the name asdusend works on; the
lines it printed that `fscanf` has not consumed. Besides, the messages that have arrived, the
transfers that have ended, and the messages that answers took off the spool. -/
structure Joint where
  manager : QueueState
  names : List Ino
  working : Option Ino
  printed : List Line
  arrived : List Ino
  transfers : List (Ino × Exit)
  delivered : List Ino

/-- An operation of quemngr that is not an answer, `read filename` in asdusend, the end of its
`sendfile`, and a call of `fscanf` in quemngr with the time of its answer. -/
inductive JointEvent where
  | operate (e : QueueEvent)
  | take
  | finish (exit : Exit)
  | hear (now : Timeval)

/-- What `fprintf` writes to the pipe in an operation: the names that became due. -/
def given (m m' : QueueState) : List Ino := (m'.due.drop m.due.length).map Prod.fst

/-- What an event puts into `drop`. -/
def arrival : QueueEvent → List Ino
  | .arrive i => [i]
  | _ => []

/-- The last line asdusend prints for a name: with status 3 there is none. -/
def finalLine (i : Ino) (exit : Exit) : List Line :=
  if printed : exit.status = 3 then [] else [.final i exit.status printed]

def takenOff (m m' : QueueState) (i : Ino) : List Ino :=
  if i ∈ m.disk.held ∧ i ∉ m'.disk.held then [i] else []

def jointStep (s : Joint) : JointEvent → Option Joint
  | .operate (.response _ _ _) => none
  | .operate e =>
      (queueStep s.manager e).map fun m =>
        { s with
          manager := m
          names := s.names ++ given s.manager m
          arrived := s.arrived ++ arrival e }
  | .take =>
      match s.working, s.names with
      | none, i :: names =>
          some { s with
            names := names
            working := some i
            printed := s.printed ++ [.confirm i] }
      | _, _ => none
  | .finish exit =>
      s.working.map fun i =>
        { s with
          working := none
          printed := s.printed ++ finalLine i exit
          transfers := s.transfers ++ [(i, exit)] }
  | .hear now =>
      match next s.printed [] with
      | (none, _, _) => none
      | (some l, printed, _) =>
          (queueStep s.manager (.response l.inode l.code now)).map fun m =>
            { s with
              manager := m
              printed := printed
              delivered := s.delivered ++ takenOff s.manager m l.inode }

def jointStart (m : QueueState) : Joint where
  manager := m
  names := []
  working := none
  printed := []
  arrived := m.disk.held
  transfers := []
  delivered := []

def ended (status : UInt8) (transfers : List (Ino × Exit)) : List Ino :=
  (transfers.filter fun t => t.2.status = status).map Prod.fst

/-- quemngr reads a line with status 0 before asdusend prints the next one, and no transfer ends
with the status that stands for a name that was read. -/
def Orderly (s : Joint) : JointEvent → Prop
  | .hear _ => s.printed.head?.map Line.code = some 0 → s.printed.tail = []
  | .finish exit => exit.status ≠ 1
  | _ => True

instance (s : Joint) (e : JointEvent) : Decidable (Orderly s e) :=
  match e with
  | .hear _ =>
      inferInstanceAs (Decidable (s.printed.head?.map Line.code = some 0 → s.printed.tail = []))
  | .finish exit => inferInstanceAs (Decidable (exit.status ≠ 1))
  | .operate _ => isTrue trivial
  | .take => isTrue trivial

end Processes

section Steps

variable {s s' : Joint}

/-- What a call of `fscanf` consumes: one line, and behind a line with status 0 the next one as
well. -/
theorem next_printed (l : Line) (rest : List Line) :
    ∃ rest', next (l :: rest) [] = (some l, rest', []) ∧
      (rest' = rest ∨ l.code = 0 ∧ ∃ l', rest = l' :: rest') := by
  by_cases empty : l.text = []
  · cases rest with
    | nil => exact ⟨[], by simp [next, front, empty], .inl rfl⟩
    | cons l' rest =>
      exact ⟨rest, by simp [next, front, empty],
        .inr ⟨l.text_empty_iff.mp empty, l', rfl⟩⟩
  · exact ⟨rest, by simp [next, front, empty], .inl rfl⟩

inductive Joins (s : Joint) : JointEvent → Joint → Prop
  | operated {e : QueueEvent} {m : QueueState} (quiet : ∀ i code now, e ≠ .response i code now)
      (happens : queueStep s.manager e = some m) :
      Joins s (.operate e)
        { s with
          manager := m
          names := s.names ++ given s.manager m
          arrived := s.arrived ++ arrival e }
  | taken {i : Ino} {names : List Ino} (idle : s.working = none) (first : s.names = i :: names) :
      Joins s .take
        { s with
          names := names
          working := some i
          printed := s.printed ++ [.confirm i] }
  | finished {i : Ino} {exit : Exit} (busy : s.working = some i) :
      Joins s (.finish exit)
        { s with
          working := none
          printed := s.printed ++ finalLine i exit
          transfers := s.transfers ++ [(i, exit)] }
  | heard {l : Line} {rest rest' : List Line} {now : Timeval} {m : QueueState}
      (first : s.printed = l :: rest)
      (consumed : rest' = rest ∨ l.code = 0 ∧ ∃ l', rest = l' :: rest')
      (happens : queueStep s.manager (.response l.inode l.code now) = some m) :
      Joins s (.hear now)
        { s with
          manager := m
          printed := rest'
          delivered := s.delivered ++ takenOff s.manager m l.inode }

theorem jointStep_joins {e : JointEvent} (happens : jointStep s e = some s') : Joins s e s' := by
  cases e with
  | operate e =>
    have operates (quiet : ∀ i code now, e ≠ .response i code now)
        (operated : (queueStep s.manager e).map (fun m =>
          { s with
            manager := m
            names := s.names ++ given s.manager m
            arrived := s.arrived ++ arrival e }) = some s') :
        Joins s (.operate e) s' := by
      obtain ⟨m, step, rfl⟩ := Option.map_eq_some_iff.mp operated
      exact .operated quiet step
    cases e with
    | response i code now => cases happens
    | arrive i => exact operates (fun _ _ _ other => by cases other) happens
    | signal isconnect => exact operates (fun _ _ _ other => by cases other) happens
    | scan entries sorted => exact operates (fun _ _ _ other => by cases other) happens
    | sendIn => exact operates (fun _ _ _ other => by cases other) happens
    | flushSend q => exact operates (fun _ _ _ other => by cases other) happens
    | expire => exact operates (fun _ _ _ other => by cases other) happens
  | take =>
    simp only [jointStep] at happens
    split at happens
    · rename_i idle first
      obtain rfl := Option.some.inj happens
      exact .taken idle first
    · cases happens
  | finish exit =>
    obtain ⟨i, busy, rfl⟩ := Option.map_eq_some_iff.mp happens
    exact .finished busy
  | hear now =>
    simp only [jointStep] at happens
    cases lines : s.printed with
    | nil =>
      rw [lines] at happens
      cases happens
    | cons l rest =>
      obtain ⟨rest', found, consumed⟩ := next_printed l rest
      rw [lines, found] at happens
      obtain ⟨m, step, rfl⟩ := Option.map_eq_some_iff.mp happens
      exact .heard lines consumed step

end Steps

section Backing

variable {s s' : Joint} {e : JointEvent}

def successes (lines : List Line) : List Ino :=
  (lines.filter fun l => l.code = 0).map Line.inode

/-- Every arrival is accounted for, also where a number is used again, and each message was taken
off by an answer that stands for a transfer of its own. -/
structure Backed (s : Joint) : Prop where
  conserved : Conserved s.manager
  owned : (s.delivered ++ successes s.printed).Sublist (ended 0 s.transfers)
  once : s.manager.disk.held.Nodup
  whole : s.arrived.Perm (s.manager.disk.held ++ s.delivered)

private theorem successes_append (lines more : List Line) :
    successes (lines ++ more) = successes lines ++ successes more := by
  simp [successes]

private theorem ended_append (status : UInt8) (transfers more : List (Ino × Exit)) :
    ended status (transfers ++ more) = ended status transfers ++ ended status more := by
  simp [ended]

private theorem successes_sublist {lines more : List Line} (part : lines.Sublist more) :
    (successes lines).Sublist (successes more) :=
  (part.filter _).map _

theorem successes_finalLine (i : Ino) (exit : Exit) :
    successes (finalLine i exit) = ended 0 [(i, exit)] := by
  by_cases last : exit.status = 3
  · simp [successes, finalLine, ended, last]
  · by_cases zero : exit.status = 0
    · simp [successes, finalLine, ended, zero, Line.code, Line.inode]
    · have line : finalLine i exit = [.final i exit.status last] := dif_neg last
      have code : Line.code (.final i exit.status last) ≠ 0 := by
        intro same
        exact zero (UInt8.toNat_inj.mp (Int.natCast_eq_zero.mp same))
      rw [line]
      simp [successes, ended, zero, code]

private theorem takenOff_sublist {m m' : QueueState} {l : Line} {now : Timeval}
    (conserved : Conserved m) (happens : queueStep m (.response l.inode l.code now) = some m') :
    (takenOff m m' l.inode).Sublist (successes [l]) := by
  unfold takenOff
  split
  · rename_i gone
    obtain ⟨⟨now', same⟩, _⟩ := delivered_of_lost conserved.recorded.now.spool
      (conserved.synced (queueStep_living happens)) happens gone.1 gone.2
    injection same with _ zero _
    simp [successes, zero]
  · exact List.nil_sublist _

private theorem held_response {m m' : QueueState} {l : Line} {now : Timeval}
    (conserved : Conserved m) (once : m.disk.held.Nodup)
    (happens : queueStep m (.response l.inode l.code now) = some m') :
    m'.disk.held.Nodup ∧ m.disk.held.Perm (m'.disk.held ++ takenOff m m' l.inode) := by
  have synced := conserved.synced (queueStep_living happens)
  rcases queueStep_held conserved.recorded synced happens with ⟨_, _, _, other⟩ | ⟨fewer, _⟩
  · cases other
  have own {i : Ino} (held : i ∈ m.disk.held) (lost : i ∉ m'.disk.held) : i = l.inode := by
    obtain ⟨⟨_, same⟩, _⟩ :=
      delivered_of_lost conserved.recorded.now.spool synced happens held lost
    injection same with inode _ _
    exact inode.symm
  have off (i : Ino) : i ∈ takenOff m m' l.inode ↔ i ∈ m.disk.held ∧ i ∉ m'.disk.held := by
    unfold takenOff
    split
    · rename_i gone
      rw [List.mem_singleton]
      exact ⟨fun same => same ▸ gone, fun lost => own lost.1 lost.2⟩
    · rename_i kept
      refine ⟨nofun, fun lost => ?_⟩
      exact absurd (own lost.1 lost.2 ▸ lost) kept
  refine ⟨once.sublist fewer, ?_⟩
  refine (List.perm_ext_iff_of_nodup once ?_).mpr fun i => ?_
  · refine List.nodup_append.mpr ⟨once.sublist fewer, ?_, ?_⟩
    · unfold takenOff
      split
      · exact List.nodup_singleton _
      · exact List.nodup_nil
    · rintro i kept _ taken rfl
      exact ((off i).mp taken).2 kept
  · rw [List.mem_append, off]
    have part : i ∈ m'.disk.held → i ∈ m.disk.held := fun kept => fewer.subset kept
    tauto

private theorem held_operation {m m' : QueueState} {e : QueueEvent} (conserved : Conserved m)
    (once : m.disk.held.Nodup) (quiet : ∀ i code now, e ≠ .response i code now)
    (happens : queueStep m e = some m') :
    m'.disk.held.Nodup ∧ m'.disk.held = arrival e ++ m.disk.held := by
  have synced := conserved.synced (queueStep_living happens)
  rcases queueStep_held conserved.recorded synced happens with
    ⟨i, fresh, held, rfl⟩ | ⟨fewer, other⟩
  · exact ⟨held ▸ List.nodup_cons.mpr ⟨fresh, once⟩, held⟩
  have silent : arrival e = [] := by
    cases e with
    | arrive i => exact absurd rfl (other i)
    | _ => rfl
  rw [silent, List.nil_append]
  refine ⟨once.sublist fewer, ?_⟩
  refine fewer.eq_of_length_le ((List.subperm_of_subset once ?_).length_le)
  intro i held
  by_contra lost
  obtain ⟨⟨now, same⟩, _⟩ := delivered_of_lost conserved.recorded.now.spool synced happens held lost
  exact quiet _ _ _ same

theorem jointStep_backed (h : Backed s) (happens : jointStep s e = some s') : Backed s' := by
  cases jointStep_joins happens with
  | operated quiet step =>
    obtain ⟨once, held⟩ := held_operation h.conserved h.once quiet step
    refine ⟨queueStep_conserved h.conserved step, h.owned, once, ?_⟩
    dsimp only
    rw [held, List.append_assoc]
    exact List.perm_append_comm.trans (h.whole.append_left _)
  | taken idle first =>
    refine ⟨h.conserved, ?_, h.once, h.whole⟩
    have silent (i : Ino) : successes [Line.confirm i] = [] := rfl
    dsimp only
    rw [successes_append, silent, List.append_nil]
    exact h.owned
  | finished busy =>
    refine ⟨h.conserved, ?_, h.once, h.whole⟩
    dsimp only
    rw [successes_append, ended_append, successes_finalLine, ← List.append_assoc]
    exact h.owned.append (List.Sublist.refl _)
  | @heard l rest rest' now m first consumed step =>
    obtain ⟨once, held⟩ := held_response h.conserved h.once step
    refine ⟨queueStep_conserved h.conserved step, ?_, once, ?_⟩
    · have part : rest'.Sublist rest := by
        rcases consumed with rfl | ⟨_, l', rfl⟩
        · exact List.Sublist.refl _
        · exact List.sublist_cons_self _ _
      have split : successes s.printed = successes [l] ++ successes rest := by
        rw [first, ← successes_append]
        rfl
      have owned := h.owned
      rw [split, ← List.append_assoc] at owned
      refine List.Sublist.trans ?_ owned
      exact ((List.Sublist.refl _).append (takenOff_sublist h.conserved step)).append
        (successes_sublist part)
    · refine h.whole.trans ((held.append_right _).trans ?_)
      rw [List.append_assoc]
      exact List.perm_append_comm.append_left _

variable {fs : Fs} {deferred : Nat} {timeout : Nat → Nat} {restored : Nat → List Msg}

theorem jointStart_backed (spool : Spool fs) (lists : Restores fs deferred restored) :
    Backed (jointStart (initqueue fs deferred timeout restored)) := by
  have conserved : Conserved (initqueue fs deferred timeout restored) :=
    initqueue_conserved spool lists
  refine ⟨conserved, List.Sublist.refl _, ?_, by simp [jointStart]⟩
  refine List.nodup_iff_count_le_one.mpr fun i => ?_
  have count :
      (initqueue fs deferred timeout restored).disk.held.count i = (homes fs i).length := by
    change List.count i ((fs.filter fun l => l.dir ≠ .act).map Entry.file) = _
    rw [List.count, List.countP_map, List.countP_filter, homes, ← List.countP_eq_length_filter]
    exact List.countP_congr fun l _ => by simp
  have one := conserved.recorded.now.homes_length i
  change (jointStart (initqueue fs deferred timeout restored)).manager.disk.held.count i ≤ 1
  rw [jointStart, count]
  change (homes fs i).length = _ at one
  rw [one]
  split <;> decide

/-- In every run of quemngr with its asdusend, however fast the one reads what the other prints
and with any ends of the transfers: the files that arrived, each as often as its number was used,
are those on the spool, which have one link outside `act` and are not there twice, and those an
answer took off; and the latter are, in order, among those whose transfer ended with status 0. -/
theorem deliveries_backed (spool : Spool fs) (lists : Restores fs deferred restored)
    {es : List JointEvent}
    (reached : run jointStep (jointStart (initqueue fs deferred timeout restored)) es = some s) :
    s.delivered.Sublist (ended 0 s.transfers) ∧
      s.arrived.Perm (s.manager.disk.held ++ s.delivered) ∧ s.manager.disk.held.Nodup ∧
        ∀ i, (homes s.manager.disk.fs i).length = if i ∈ s.manager.disk.held then 1 else 0 := by
  have backed : Backed s :=
    run_invariant (fun _ _ _ inv happens => jointStep_backed inv happens)
      (jointStart_backed spool lists) reached
  exact ⟨(List.sublist_append_left _ _).trans backed.owned, backed.whole, backed.once,
    backed.conserved.recorded.now.homes_length⟩

/-- A message that is transferred, and one whose transfer is the last of the deferred ones. -/
def twoTransfers : List JointEvent :=
  [.operate (.arrive 5), .operate (.scan [⟨5, 5, ⟨7, 0⟩⟩] [⟨5, ⟨7, 0⟩, IN⟩]), .operate .sendIn,
    .take, .hear ⟨8, 0⟩, .finish (.exited 0), .hear ⟨9, 0⟩, .operate (.arrive 6),
    .operate (.scan [⟨6, 6, ⟨9, 0⟩⟩] [⟨6, ⟨9, 0⟩, IN⟩]), .operate .sendIn, .take, .hear ⟨10, 0⟩,
    .finish (.exited 3)]

theorem deliveries_backed_twoTransfers :
    ∃ s, run jointStep (jointStart (initqueue [] 1 (fun _ => 60) fun _ => [])) twoTransfers =
        some s ∧
      s.delivered = [5] ∧ s.delivered.Sublist (ended 0 s.transfers) ∧
      s.arrived.Perm (s.manager.disk.held ++ [5]) ∧ (homes s.manager.disk.fs 6).length = 1 := by
  have reached : run jointStep (jointStart (initqueue [] 1 (fun _ => 60) fun _ => []))
      twoTransfers = some _ := rfl
  obtain ⟨backed, whole, _, homes⟩ := deliveries_backed spool_nil (restores_nil 1) reached
  exact ⟨_, reached, rfl, backed, whole, (homes 6).trans (if_pos List.mem_cons_self)⟩

end Backing

section Owing

variable {due rest more : List (Ino × Bool)} {lines : List Line} {l : Line}

/-- Each of the lines answers a name that is due when its turn comes, and behind them this much
is due. -/
def Settles : List (Ino × Bool) → List Line → List (Ino × Bool) → Prop
  | due, [], rest => due.Perm rest
  | due, l :: lines, rest =>
      (l.inode, decide (l.code ≠ 1)) ∈ due ∧ Settles (answered due l.inode l.code) lines rest

theorem answered_append {i : Ino} {code : Int} (owed : (i, decide (code ≠ 1)) ∈ due) :
    answered (due ++ more) i code = answered due i code ++ more := by
  unfold answered
  by_cases first : code = 1
  · rw [decide_eq_false (not_not_intro first)] at owed
    rw [if_pos first, if_pos first, List.erase_append_left _ owed]
    rfl
  · rw [decide_eq_true first] at owed
    rw [if_neg first, if_neg first, List.erase_append_left _ owed]

theorem answered_perm (perm : due.Perm rest) (i : Ino) (code : Int) :
    (answered due i code).Perm (answered rest i code) := by
  unfold answered
  split
  · exact (perm.erase _).cons _
  · exact perm.erase _

theorem Settles.grow (h : Settles due lines rest) (more : List (Ino × Bool)) :
    Settles (due ++ more) lines (rest ++ more) := by
  induction lines generalizing due with
  | nil => exact List.Perm.append_right more h
  | cons l lines ih =>
    obtain ⟨owed, later⟩ := h
    refine ⟨List.mem_append_left _ owed, ?_⟩
    rw [answered_append owed]
    exact ih later

theorem Settles.line (h : Settles due lines rest) (owed : (l.inode, decide (l.code ≠ 1)) ∈ rest) :
    Settles due (lines ++ [l]) (answered rest l.inode l.code) := by
  induction lines generalizing due with
  | nil => exact ⟨(List.Perm.mem_iff h).mpr owed, answered_perm h _ _⟩
  | cons l' lines ih => exact ⟨h.1, ih h.2⟩

theorem Settles.perm (h : Settles due lines rest) (perm : rest.Perm more) :
    Settles due lines more := by
  induction lines generalizing due with
  | nil => exact List.Perm.trans h perm
  | cons l lines ih => exact ⟨h.1, ih h.2⟩

end Owing

section Counting

variable {s s' : Joint} {e : JointEvent}

/-- What asdusend will still answer, and the messages it never will. -/
def inHand (s : Joint) : List (Ino × Bool) :=
  s.names.map (·, false) ++
    (s.working.toList.map (·, true) ++ (ended 3 s.transfers).map (·, true))

/-- The account of quemngr, and the lines on their way to it. -/
structure Owing (s : Joint) : Prop where
  tracked : Tracked s.manager
  settles : s.manager.exited = false → Settles s.manager.due s.printed (inHand s)

private theorem response_due {m m' : QueueState} {i : Ino} {code : Int} {now : Timeval}
    (outcome : Outcome m (.response i code now) m') : m'.due = answered m.due i code := by
  cases outcome with
  | idle silent => exact absurd rfl (silent i code now)
  | sent _ _ _ _ cause => rcases cause with ⟨other, _⟩ | other <;> cases other
  | stray => rfl
  | confirmed => rfl
  | settled => rfl
  | requeued => rfl

private theorem operation_due {m m' : QueueState} {e : QueueEvent}
    (quiet : ∀ i code now, e ≠ .response i code now) (outcome : Outcome m e m') :
    ∃ names : List Ino, m'.due = m.due ++ names.map (·, false) := by
  cases outcome with
  | idle => exact ⟨[], (List.append_nil _).symm⟩
  | arrived => exact ⟨[], (List.append_nil _).symm⟩
  | scanned => exact ⟨[], (List.append_nil _).symm⟩
  | @sent _ q i => exact ⟨[i], rfl⟩
  | expired => exact ⟨[], (List.append_nil _).symm⟩
  | @fired node => exact ⟨[definode node.inode], rfl⟩
  | stray => exact absurd rfl (quiet _ _ _)
  | confirmed => exact absurd rfl (quiet _ _ _)
  | settled => exact absurd rfl (quiet _ _ _)
  | requeued => exact absurd rfl (quiet _ _ _)

private theorem given_eq {m m' : QueueState} {names : List Ino}
    (due : m'.due = m.due ++ names.map (·, false)) : given m m' = names := by
  rw [given, due, List.drop_left, List.map_map]
  exact List.map_id _

theorem queueStep_outcome_of {m m' : QueueState} {e : QueueEvent} (tracked : Tracked m)
    (happens : queueStep m e = some m') (alive : m'.exited = false) : Outcome m e m' :=
  queueStep_outcome tracked.conserved.recorded.now.spool
    (tracked.conserved.synced (queueStep_living happens)) happens alive

private theorem owing_operated {e : QueueEvent} {m : QueueState} (h : Owing s)
    (quiet : ∀ i code now, e ≠ .response i code now)
    (happens : queueStep s.manager e = some m) :
    Owing { s with
      manager := m
      names := s.names ++ given s.manager m
      arrived := s.arrived ++ arrival e } := by
  have silent : Answers s.manager e := by
    cases e with
    | response i code now => exact absurd rfl (quiet i code now)
    | _ => trivial
  refine ⟨queueStep_tracked h.tracked silent happens, fun alive => ?_⟩
  obtain ⟨names, due⟩ := operation_due quiet (queueStep_outcome_of h.tracked happens alive)
  have settles := (h.settles (queueStep_living happens)).grow (names.map (·, false))
  dsimp only
  rw [due, given_eq due]
  refine settles.perm ?_
  unfold inHand
  dsimp only
  rw [List.map_append, List.append_assoc, List.append_assoc _ (names.map _)]
  exact List.perm_append_comm.append_left _

private theorem owing_taken {i : Ino} {names : List Ino} (h : Owing s) (idle : s.working = none)
    (first : s.names = i :: names) :
    Owing { s with
      names := names
      working := some i
      printed := s.printed ++ [.confirm i] } := by
  refine ⟨h.tracked, fun alive => ?_⟩
  have hand : inHand s = (i, false) ::
      (names.map (·, false) ++ (ended 3 s.transfers).map (·, true)) := by
    rw [inHand, first, idle]
    rfl
  have owed : ((Line.confirm i).inode, decide ((Line.confirm i).code ≠ 1)) ∈ inHand s := by
    rw [hand]
    exact List.mem_cons_self
  refine ((h.settles alive).line owed).perm ?_
  rw [hand, answered, if_pos (by rfl)]
  change ((i, true) :: List.erase ((i, false) :: _) (i, false)).Perm _
  rw [List.erase_cons_head]
  exact List.perm_middle.symm

private theorem owing_finished {i : Ino} {exit : Exit} (h : Owing s) (busy : s.working = some i)
    (regular : exit.status ≠ 1) :
    Owing { s with
      working := none
      printed := s.printed ++ finalLine i exit
      transfers := s.transfers ++ [(i, exit)] } := by
  refine ⟨h.tracked, fun alive => ?_⟩
  have hand : (inHand s).Perm ((i, true) ::
      (s.names.map (·, false) ++ (ended 3 s.transfers).map (·, true))) := by
    rw [inHand, busy]
    exact List.perm_middle
  by_cases last : exit.status = 3
  · -- no line is printed, and the name is never answered
    have line : finalLine i exit = [] := dif_pos last
    have stuck : ended 3 (s.transfers ++ [(i, exit)]) = ended 3 s.transfers ++ [i] := by
      simp [ended, last]
    refine Settles.perm (?_ : Settles _ _ (inHand s)) ?_
    · dsimp only
      rw [line, List.append_nil]
      exact h.settles alive
    · refine hand.trans ?_
      unfold inHand
      dsimp only
      rw [stuck, List.map_append, Option.toList_none, List.map_nil, List.nil_append,
        ← List.append_assoc]
      exact (List.perm_append_singleton _ _).symm
  · have line : finalLine i exit = [.final i exit.status last] := dif_neg last
    have final : Line.code (.final i exit.status last) ≠ 1 := by
      intro same
      exact regular (UInt8.toNat_inj.mp (Int.ofNat_inj.mp same))
    have others : ended 3 (s.transfers ++ [(i, exit)]) = ended 3 s.transfers := by
      simp [ended, last]
    have owed : (i, decide (Line.code (.final i exit.status last) ≠ 1)) ∈ inHand s := by
      rw [decide_eq_true final]
      exact hand.mem_iff.mpr List.mem_cons_self
    dsimp only
    rw [line]
    refine ((h.settles alive).line (l := .final i exit.status last) owed).perm ?_
    refine (answered_perm hand _ _).trans ?_
    rw [answered, if_neg final]
    change (List.erase ((i, true) :: _) (i, true)).Perm _
    rw [List.erase_cons_head, inHand, others]
    rfl

private theorem owing_heard {l : Line} {rest : List Line} {now : Timeval} {m : QueueState}
    (h : Owing s) (first : s.printed = l :: rest)
    (happens : queueStep s.manager (.response l.inode l.code now) = some m) :
    Owing { s with
      manager := m
      printed := rest
      delivered := s.delivered ++ takenOff s.manager m l.inode } := by
  have settles := h.settles (queueStep_living happens)
  rw [first] at settles
  obtain ⟨owed, later⟩ := settles
  have answers : Answers s.manager (.response l.inode l.code now) := owed
  refine ⟨queueStep_tracked h.tracked answers happens, fun alive => ?_⟩
  have due := response_due (queueStep_outcome_of h.tracked happens alive)
  dsimp only
  rw [due]
  exact later

theorem jointStep_owing (h : Owing s) (orderly : Orderly s e) (happens : jointStep s e = some s') :
    Owing s' := by
  cases jointStep_joins happens with
  | operated quiet step => exact owing_operated h quiet step
  | taken idle first => exact owing_taken h idle first
  | finished busy => exact owing_finished h busy orderly
  | @heard l rest rest' now m first consumed step =>
    have all : rest' = rest := by
      rcases consumed with same | ⟨zero, l', behind⟩
      · exact same
      · have alone : s.printed.tail = [] := orderly (by rw [first]; exact congrArg some zero)
        rw [first, List.tail_cons, behind] at alone
        cases alone
    rw [all]
    exact owing_heard h first step

variable {fs : Fs} {deferred : Nat} {timeout : Nat → Nat} {restored : Nat → List Msg}

theorem jointStart_owing (spool : Spool fs) (lists : Restores fs deferred restored) :
    Owing (jointStart (initqueue fs deferred timeout restored)) :=
  ⟨initqueue_tracked spool lists, fun _ => List.Perm.refl _⟩

/-- If quemngr reads each line with status 0 before the next one is printed, and no transfer ends
with status 1: as long as quemngr lives the counters of every queue count its messages in flight
and those of them whose line with status 1 it has read, and when nothing is under way between the
two, the messages in flight are those whose transfer ended with status 3. -/
theorem joint_counters (spool : Spool fs) (lists : Restores fs deferred restored)
    {es : List JointEvent}
    (orderly : Guarded jointStep Orderly (jointStart (initqueue fs deferred timeout restored)) es)
    (reached : run jointStep (jointStart (initqueue fs deferred timeout restored)) es = some s)
    (alive : s.manager.exited = false) :
    (∀ q, 1 ≤ q → q ≤ s.manager.countq →
      (s.manager.quelist q).send = inFlight s.manager q ∧
        (s.manager.quelist q).conf = accepted s.manager q ∧
        (s.manager.quelist q).send ≤ windowOf q) ∧
      (s.names = [] → s.working = none → s.printed = [] →
        (s.manager.quelist ACT).inodes.Perm (ended 3 s.transfers)) := by
  have owing : Owing s :=
    guarded_invariant (fun _ _ _ inv meets happens => jointStep_owing inv meets happens)
      (jointStart_owing spool lists) orderly reached
  have flight := owing.tracked.flight alive
  constructor
  · intro q queue range
    exact ⟨flight.send queue range, flight.conf queue range, flight.window queue range⟩
  · intro names working printed
    have settles := owing.settles alive
    rw [printed, inHand, names, working] at settles
    have due : s.manager.due.Perm ((ended 3 s.transfers).map (·, true)) := settles
    have inodes := due.map Prod.fst
    rw [List.map_map] at inodes
    exact flight.due.symm.trans (inodes.trans (List.Perm.of_eq (List.map_id _)))

/-- The second message stays in flight. -/
theorem joint_counters_twoTransfers :
    ∃ s, run jointStep (jointStart (initqueue [] 1 (fun _ => 60) fun _ => [])) twoTransfers =
        some s ∧
      (s.manager.quelist IN).send = inFlight s.manager IN ∧
      (s.manager.quelist ACT).inodes.Perm [6] := by
  have reached : run jointStep (jointStart (initqueue [] 1 (fun _ => 60) fun _ => []))
      twoTransfers = some _ := rfl
  obtain ⟨counters, quiet⟩ := joint_counters spool_nil (restores_nil 1) (by decide) reached rfl
  exact ⟨_, reached, (counters IN (by decide) (by decide)).1, quiet rfl rfl rfl⟩

end Counting

end IecUtils.Sender.Delivery
