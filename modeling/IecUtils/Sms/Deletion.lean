/- Module: IecUtils/Sms/Deletion
   source: smssep and the loop of scripts/smsget, cmdsend of scripts/utils/io_utils, and scripts/smsdrop
   digest: What is deleted from the card has been handled, whatever arrives or breaks off between. -/

import IecUtils.Foundation.Transition
import IecUtils.Sms.Naming
import IecUtils.Sms.Reassembly
import Mathlib.Data.List.Infix
import Mathlib.Data.List.Range

set_option autoImplicit false
set_option relaxedAutoImplicit false

namespace IecUtils.Sms.Deletion

open IecUtils.Foundation
open IecUtils.Foundation.Builtins
open IecUtils.Foundation.Transition
open IecUtils.Foundation.Words
open IecUtils.Sms.Shell
open IecUtils.Sms.Parse (Final smsparse)
open IecUtils.Sms.Listing (Listed twelveDigits)
open IecUtils.Sms.Join (Collation field smsjoin)
open IecUtils.Sms.Naming
open IecUtils.Sms.Reassembly (codePoints)

section Program

/-- The status of `smsdrop`. `parser` is that of the parser, if there is one for the model; without
one `$?` is 0, from the `if`. -/
def smsdrop (parser : Option Nat) (synced : Bool) : Nat :=
  match parser.getD 0 with
  | 0 => if synced then 0 else 3
  | 1 => 1
  | 2 => 2
  | _ => 0

/-- The lines that end the loop of `smssep`, and what it prints then. -/
def closing (line listid : List Char) (smsnum : Nat) : Option (List Char) :=
  if ['O', 'K'] <:+: line then some (if smsnum = 0 then ['e', 'm', 'p', 't', 'y'] else listid)
  else if ['E', 'R', 'R', 'O', 'R'] <:+: line then some ['e', 'r', 'r', 'o', 'r']
  else none

/-- Without a word that is no option `grep` takes the name of the file for the pattern, and reads
the lines that are left. -/
def Starves (num : List Char) : Prop := ∀ w ∈ words isBlank num, w.head? = some '-'

instance (num : List Char) : Decidable (Starves num) := List.decidableBAll _ _

variable (asduaddr : List Char → List Char)

/-- The status of `smsdrop` for a line, if the number in it has one address. -/
def handle (line : List Char) (parser : Option Nat) (synced : Bool) : Option Nat :=
  if ¬ Starves (field 2 line) ∧ (words isBlank (asduaddr (field 2 line))).length = 1 then
    some (smsdrop parser synced)
  else none

/-- The outcomes behind which the slots of a line are entered in `listid`. -/
def Settles (outcome : Option Nat) : Prop := ∀ status ∈ outcome, status ≤ 2

instance (outcome : Option Nat) : Decidable (Settles outcome) := by
  unfold Settles
  infer_instance

/-- Where `smsget` is: in `sleep`, in `smssep` with the lines that are left, or at the slots that
are left to delete. -/
inductive Phase where
  | idle
  | handling (p : Poll) (lines : List (List Char)) (listid : List Char) (smsnum : Nat)
  | deleting (p : Poll) (slots : List (List Char))

/-- `case $smslistid`. -/
def choose (p : Poll) (smslistid : List Char) : Phase :=
  if smslistid = ['e', 'm', 'p', 't', 'y'] ∨ smslistid = ['e', 'r', 'r', 'o', 'r'] ∨
      smslistid = ['u', 'n', 'd', 'e', 'f'] then .idle
  else .deleting p (words isBlank smslistid)

/-- The card, whose messages are numbered as they arrive, and the program. `handled` are the lines
that `smssep` has been through. -/
structure State where
  sim : List (Nat × Listed)
  arrived : Nat
  deleted : List Nat
  handled : List (Poll × List Char × Option Nat)
  phase : Phase

def State.init : State := ⟨[], 0, [], [], .idle⟩

/-- A message arrives in a free slot; the device answers to `AT+CMGL=4`; `smssep` reads a line; a
message is deleted, and the device replies; the loop begins anew; the program is killed and
started again. -/
inductive Event where
  | arrive (l : Listed) (place : Nat)
  | list (shown : Nat) (verdict : Option Verdict)
  | read (parser : Option Nat) (synced : Bool)
  | delete (removed replied : Bool)
  | sleep
  | kill

/-- The messages that arrive have no names that are taken for something else. -/
def Event.Tame : Event → Prop
  | .arrive l _ => Naming.Tame l
  | _ => True

def State.remove (s : State) (slot : List Char) : State :=
  { s with
    sim := s.sim.filter fun e => e.2.index ≠ slot
    deleted := s.deleted ++ (s.sim.filter fun e => e.2.index = slot).map Prod.fst }

variable (files : Pathnames) (c : Collation)

def step (s : State) : Event → Option State
  | .arrive l place =>
      if l.index ∈ s.sim.map fun e => e.2.index then none
      else
        some
          { s with
            sim := s.sim.take place ++ (s.arrived, l) :: s.sim.drop place
            arrived := s.arrived + 1 }
  | .list shown verdict =>
      match s.phase with
      | .idle =>
          let p : Poll := ⟨s.sim, shown, verdict⟩
          -- `cmdsend` fails without a reply
          if p.response = [] then some s
          else some { s with phase := .handling p (p.lines files c) [] 0 }
      | _ => none
  | .read parser synced =>
      match s.phase with
      | .handling p [] listid _ => some { s with phase := choose p listid }
      | .handling p (line :: lines) listid smsnum =>
          match closing line listid smsnum with
          | some smslistid => some { s with phase := choose p smslistid }
          | none =>
              let outcome := handle asduaddr line parser synced
              let lines := if Starves (field 2 line) then [] else lines
              let listid := if Settles outcome then listid ++ field 1 line ++ [' '] else listid
              some
                { s with
                  handled := s.handled ++ [(p, line, outcome)]
                  phase := .handling p lines listid (smsnum + 1) }
      | _ => none
  | .delete removed replied =>
      match s.phase with
      | .deleting p (slot :: slots) =>
          let s := if removed then s.remove slot else s
          some { s with phase := if replied then .deleting p slots else .idle }
      | _ => none
  | .sleep =>
      match s.phase with
      | .deleting _ [] => some { s with phase := .idle }
      | _ => none
  | .kill => some { s with phase := .idle }

def left : Phase → Nat
  | .idle => 0
  | .handling _ lines listid _ =>
      (words isBlank listid).length + (lines.flatMap ids).length + lines.length + 1
  | .deleting _ slots => slots.length

end Program

section Invariant

variable {asduaddr : List Char → List Char} {files : Pathnames} {c : Collation}

/-- A message was in a line that `smssep` was through with, whole. -/
def Settled (files : Pathnames) (c : Collation) (s : State) (n : Nat) : Prop :=
  ∃ p line outcome, (p, line, outcome) ∈ s.handled ∧ Settles outcome ∧
    ∃ e ∈ p.sim, e.1 = n ∧ ∃ r, RecordOf files e.2 r ∧ Joins (p.records files c) r line

/-- The slots of a poll that are to be deleted, and those that are still to be handled. -/
structure Pending (files : Pathnames) (c : Collation) (s : State) (p : Poll)
    (done todo : List (List Char)) : Prop where
  tame : ∀ e ∈ p.sim, Tame e.2
  slots : (p.sim.map fun e => e.2.index).Nodup
  once : (done ++ todo).Nodup
  kept : ∀ i ∈ done ++ todo, ∃ e ∈ p.sim, e.2.index = i ∧ e ∈ s.sim
  settled : ∀ i ∈ done, ∃ line outcome, (p, line, outcome) ∈ s.handled ∧ Settles outcome ∧
    line ∈ p.lines files c ∧ ¬ Final line ∧ i ∈ ids line

def Current (files : Pathnames) (c : Collation) (s : State) : Phase → Prop
  | .idle => True
  | .handling p lines listid _ =>
      Pending files c s p (words isBlank listid) (named lines) ∧ lines ⊆ p.lines files c ∧
        ∀ a ∈ listid.getLast?, a = ' '
  | .deleting p slots => Pending files c s p slots []

structure Sound (files : Pathnames) (c : Collation) (s : State) : Prop where
  tame : ∀ e ∈ s.sim, Tame e.2
  slots : (s.sim.map fun e => e.2.index).Nodup
  accounted : (s.sim.map Prod.fst ++ s.deleted).Perm (List.range s.arrived)
  settled : ∀ n ∈ s.deleted, Settled files c s n
  current : Current files c s s.phase

theorem Pending.shrink {s : State} {p : Poll} {done todo done' todo' : List (List Char)}
    (pending : Pending files c s p done todo) (part : (done' ++ todo').Sublist (done ++ todo))
    (fewer : done' ⊆ done) : Pending files c s p done' todo' :=
  ⟨pending.tame, pending.slots, pending.once.sublist part,
    fun i member => pending.kept i (part.subset member),
    fun i member => pending.settled i (fewer member)⟩

theorem Pending.mono {s t : State} {p : Poll} {done todo : List (List Char)}
    (pending : Pending files c s p done todo)
    (kept : ∀ e ∈ s.sim, e.2.index ∈ done ++ todo → e ∈ t.sim)
    (handled : s.handled ⊆ t.handled) : Pending files c t p done todo := by
  refine ⟨pending.tame, pending.slots, pending.once, ?_, ?_⟩
  · intro i member
    obtain ⟨e, listed, rfl, inside⟩ := pending.kept i member
    exact ⟨e, listed, rfl, kept e inside member⟩
  · intro i member
    obtain ⟨line, outcome, logged, rest⟩ := pending.settled i member
    exact ⟨line, outcome, handled logged, rest⟩

theorem Settled.mono {s t : State} {n : Nat} (settled : Settled files c s n)
    (handled : s.handled ⊆ t.handled) : Settled files c t n := by
  obtain ⟨p, line, outcome, logged, rest⟩ := settled
  exact ⟨p, line, outcome, handled logged, rest⟩

theorem eq_of_slot {sim : List (Nat × Listed)} (slots : (sim.map fun e => e.2.index).Nodup)
    {d e : Nat × Listed} (first : d ∈ sim) (second : e ∈ sim) (same : d.2.index = e.2.index) :
    d = e :=
  List.inj_on_of_nodup_map slots first second same

theorem Pending.message {s : State} {p : Poll} {done todo : List (List Char)}
    (pending : Pending files c s p done todo) (slots : (s.sim.map fun e => e.2.index).Nodup)
    {i : List Char} (member : i ∈ done) {e : Nat × Listed} (inside : e ∈ s.sim)
    (own : e.2.index = i) : Settled files c s e.1 := by
  obtain ⟨line, outcome, logged, settles, among, go, names⟩ := pending.settled i member
  obtain ⟨d, listed, slot, present⟩ := pending.kept i (List.mem_append_left _ member)
  obtain ⟨d', listed', slot', r, isRecord, joins⟩ := names_message pending.tame among go names
  have same : d = e := eq_of_slot slots present inside (slot.trans own.symm)
  have same' : d' = d := eq_of_slot pending.slots listed' listed (slot'.trans slot.symm)
  exact ⟨p, line, outcome, logged, settles, d', listed', by rw [same', same], r, isRecord, joins⟩

theorem Current.mono {s t : State} {phase : Phase} (current : Current files c s phase)
    (kept : s.sim ⊆ t.sim) (handled : s.handled ⊆ t.handled) : Current files c t phase := by
  cases phase with
  | idle => trivial
  | handling p lines listid smsnum =>
    exact ⟨current.1.mono (fun e inside _ => kept inside) handled, current.2⟩
  | deleting p slots => exact Pending.mono current (fun e inside _ => kept inside) handled

end Invariant

private theorem placed_perm {α : Type} (stored : List α) (place : Nat) (a : α) :
    (stored.take place ++ a :: stored.drop place).Perm (a :: stored) := by
  have whole : (stored.take place ++ a :: stored.drop place).Perm
      (a :: (stored.take place ++ stored.drop place)) := List.perm_middle
  rwa [List.take_append_drop] at whole

section Steps

variable {asduaddr : List Char → List Char} {files : Pathnames} {c : Collation} {s t : State}

theorem sound_arrive (sound : Sound files c s) {l : Listed} {place : Nat} (tame : Tame l)
    (taken : step asduaddr files c s (.arrive l place) = some t) : Sound files c t := by
  simp only [step, Option.ite_none_left_eq_some, Option.some.injEq] at taken
  obtain ⟨free, rfl⟩ := taken
  have added := placed_perm s.sim place (s.arrived, l)
  have kept : s.sim ⊆ s.sim.take place ++ (s.arrived, l) :: s.sim.drop place :=
    fun e inside => added.mem_iff.mpr (List.mem_cons_of_mem _ inside)
  constructor
  · intro e inside
    rcases List.mem_cons.mp (added.mem_iff.mp inside) with rfl | before
    · exact tame
    · exact sound.tame e before
  · rw [(added.map _).nodup_iff, List.map_cons, List.nodup_cons]
    exact ⟨free, sound.slots⟩
  · rw [List.range_succ]
    have moved := (added.map Prod.fst).append_right s.deleted
    refine moved.trans ?_
    rw [List.map_cons, List.cons_append]
    exact (List.Perm.cons _ sound.accounted).trans (List.perm_append_singleton _ _).symm
  · exact fun n member => (sound.settled n member).mono (List.Subset.refl _)
  · exact sound.current.mono kept (List.Subset.refl _)

theorem Sound.phase (sound : Sound files c s) {phase : Phase} (current : Current files c s phase) :
    Sound files c { s with phase := phase } :=
  ⟨sound.tame, sound.slots, sound.accounted,
    fun n member => (sound.settled n member).mono (List.Subset.refl _),
    current.mono (List.Subset.refl _) (List.Subset.refl _)⟩

theorem sound_list (sound : Sound files c s) {shown : Nat} {verdict : Option Verdict}
    (taken : step asduaddr files c s (.list shown verdict) = some t) : Sound files c t := by
  unfold step at taken
  dsimp only at taken
  split at taken
  · split at taken
    · obtain rfl := Option.some.inj taken
      exact sound
    · obtain rfl := Option.some.inj taken
      refine sound.phase ⟨⟨sound.tame, sound.slots, named_nodup sound.tame sound.slots, ?_, nofun⟩,
        List.Subset.refl _, nofun⟩
      intro i member
      obtain ⟨line, inside, names⟩ := List.mem_flatMap.mp member
      obtain ⟨among, go⟩ := List.mem_filter.mp inside
      obtain ⟨e, listed, own, _⟩ := names_message sound.tame among (of_decide_eq_true go) names
      exact ⟨e, listed, own, listed⟩
  · cases taken

theorem current_choose {p : Poll} {listid : List Char} {todo : List (List Char)}
    (pending : Pending files c s p (words isBlank listid) todo) {smslistid : List Char}
    (final : smslistid = listid ∨ smslistid = ['e', 'm', 'p', 't', 'y'] ∨
      smslistid = ['e', 'r', 'r', 'o', 'r']) : Current files c s (choose p smslistid) := by
  unfold choose
  split_ifs with apart
  · trivial
  · push Not at apart
    rcases final with rfl | rfl | rfl
    · refine pending.shrink ?_ (List.Subset.refl _)
      rw [List.append_nil]
      exact List.sublist_append_left _ _
    · exact absurd rfl apart.1
    · exact absurd rfl apart.2.1

theorem closing_some {line listid smslistid : List Char} {smsnum : Nat}
    (ends : closing line listid smsnum = some smslistid) :
    smslistid = listid ∨ smslistid = ['e', 'm', 'p', 't', 'y'] ∨
      smslistid = ['e', 'r', 'r', 'o', 'r'] := by
  unfold closing at ends
  split_ifs at ends with ok none error
  · exact .inr (.inl (Option.some.inj ends).symm)
  · exact .inl (Option.some.inj ends).symm
  · exact .inr (.inr (Option.some.inj ends).symm)

theorem closing_none {line listid : List Char} {smsnum : Nat}
    (goes : closing line listid smsnum = none) : ¬ Final line := by
  unfold closing at goes
  split_ifs at goes with ok error
  rintro (inside | inside)
  · exact ok inside
  · exact error inside

theorem words_listid {listid : List Char} (spaced : ∀ a ∈ listid.getLast?, a = ' ')
    (id : List Char) :
    words isBlank (listid ++ id ++ [' ']) = words isBlank listid ++ words isBlank id := by
  have behind : words isBlank (id ++ [' ']) = words isBlank id := by
    rw [words, wordsFrom_blank rfl]
    exact List.append_nil _
  rcases List.eq_nil_or_concat listid with rfl | ⟨front, a, rfl⟩
  · exact behind
  · rw [List.concat_eq_append] at spaced ⊢
    obtain rfl : a = ' ' := spaced a (by simp)
    have regroup : front ++ [' '] ++ id ++ [' '] = front ++ ' ' :: (id ++ [' ']) := by simp
    have before : words isBlank (front ++ [' ']) = words isBlank front := by
      rw [words, wordsFrom_blank rfl]
      exact List.append_nil _
    rw [regroup, words, wordsFrom_blank rfl, behind, before]
    rfl

theorem named_cons {line : List Char} (go : ¬ Final line) (lines : List (List Char)) :
    named (line :: lines) = ids line ++ named lines := by
  simp [named, go]

theorem Pending.read {u : State} {p : Poll} {line listid : List Char}
    {lines rest : List (List Char)} {outcome : Option Nat}
    (pending : Pending files c s p (words isBlank listid) (named (line :: lines)))
    (spaced : ∀ a ∈ listid.getLast?, a = ' ') (among : line ∈ p.lines files c) (go : ¬ Final line)
    (later : rest.Sublist lines) (sim : u.sim = s.sim)
    (handled : u.handled = s.handled ++ [(p, line, outcome)]) :
    Pending files c u p
      (words isBlank (if Settles outcome then listid ++ field 1 line ++ [' '] else listid))
      (named rest) := by
  have grown : s.handled ⊆ u.handled := by
    rw [handled]
    exact List.subset_append_left _ _
  have names : (named rest).Sublist (named lines) := (later.filter _).flatMap _
  have known : Pending files c u p (words isBlank listid) (ids line ++ named lines) := by
    rw [← named_cons go]
    exact pending.mono (fun e inside _ => sim ▸ inside) grown
  split
  · rename_i settles
    have entered : words isBlank (listid ++ field 1 line ++ [' ']) =
        words isBlank listid ++ ids line := words_listid spaced (field 1 line)
    have part : (words isBlank listid ++ ids line ++ named rest).Sublist
        (words isBlank listid ++ (ids line ++ named lines)) := by
      rw [List.append_assoc]
      exact (names.append_left _).append_left _
    rw [entered]
    refine ⟨known.tame, known.slots, known.once.sublist part,
      fun i member => known.kept i (part.subset member), fun i member => ?_⟩
    rcases List.mem_append.mp member with before | now
    · exact known.settled i before
    · refine ⟨line, outcome, ?_, settles, among, go, now⟩
      rw [handled]
      exact List.mem_append_right _ (List.mem_singleton_self _)
  · refine known.shrink ?_ (List.Subset.refl _)
    exact (names.trans (List.sublist_append_right _ _)).append_left _

theorem sound_read (sound : Sound files c s) {parser : Option Nat} {synced : Bool}
    (taken : step asduaddr files c s (.read parser synced) = some t) : Sound files c t := by
  have current := sound.current
  unfold step at taken
  dsimp only at taken
  split at taken
  · rename_i p listid smsnum phase
    obtain rfl := Option.some.inj taken
    rw [phase] at current
    exact sound.phase (current_choose current.1 (.inl rfl))
  · rename_i p line lines listid smsnum phase
    rw [phase] at current
    obtain ⟨pending, among, spaced⟩ := current
    split at taken
    · rename_i smslistid ends
      obtain rfl := Option.some.inj taken
      exact sound.phase (current_choose pending (closing_some ends))
    · rename_i goes
      obtain rfl := Option.some.inj taken
      have rest : (if Starves (field 2 line) then [] else lines).Sublist lines := by
        split
        · exact List.nil_sublist lines
        · exact List.Sublist.refl lines
      refine ⟨sound.tame, sound.slots, sound.accounted, fun n member =>
        (sound.settled n member).mono (List.subset_append_left _ _), ?_, ?_, ?_⟩
      · exact pending.read spaced (among List.mem_cons_self) (closing_none goes) rest rfl rfl
      · exact fun l inside => among (List.mem_cons_of_mem line (rest.subset inside))
      · split
        · simp
        · exact spaced
  · cases taken

theorem sound_remove (sound : Sound files c s) {p : Poll} {slot : List Char}
    {slots : List (List Char)}
    (pending : Pending files c s p (slot :: slots) []) :
    Sound files c { s.remove slot with phase := .deleting p slots } := by
  have handled : s.handled ⊆ (s.remove slot).handled := List.Subset.refl _
  constructor
  · exact fun e inside => sound.tame e (List.mem_of_mem_filter inside)
  · exact sound.slots.sublist (List.filter_sublist.map _)
  · have parts : (s.sim.filter (fun e => e.2.index ≠ slot) ++
        s.sim.filter fun e => e.2.index = slot).Perm s.sim := by
      have whole := List.filter_append_perm (fun e : Nat × Listed => e.2.index ≠ slot) s.sim
      simpa using whole
    have moved := (parts.map Prod.fst).append_right s.deleted
    rw [List.map_append, List.append_assoc] at moved
    refine List.Perm.trans ?_ (moved.trans sound.accounted)
    exact List.perm_append_comm.append_left _
  · intro n member
    rcases List.mem_append.mp member with before | now
    · exact (sound.settled n before).mono handled
    · obtain ⟨e, inside, rfl⟩ := List.mem_map.mp now
      obtain ⟨present, own⟩ := List.mem_filter.mp inside
      exact (pending.message sound.slots List.mem_cons_self present (of_decide_eq_true own)).mono
        handled
  · have rest : Pending files c s p slots [] := pending.shrink
      ((List.sublist_cons_self slot slots).append_right _) (List.subset_cons_self slot slots)
    refine rest.mono ?_ handled
    intro e inside member
    refine List.mem_filter.mpr ⟨inside, decide_eq_true ?_⟩
    rintro rfl
    have once := pending.once
    rw [List.append_nil] at once member
    exact (List.nodup_cons.mp once).1 member

theorem sound_delete (sound : Sound files c s) {removed replied : Bool}
    (taken : step asduaddr files c s (.delete removed replied) = some t) : Sound files c t := by
  have current := sound.current
  unfold step at taken
  dsimp only at taken
  split at taken
  · rename_i p slot slots phase
    rw [phase] at current
    obtain rfl := Option.some.inj taken
    have sent : Sound files c { (if removed then s.remove slot else s) with
        phase := .deleting p slots } := by
      cases removed with
      | true => exact sound_remove sound current
      | false =>
        refine sound.phase (Pending.shrink current ?_ (List.subset_cons_self slot slots))
        exact (List.sublist_cons_self slot slots).append_right _
    cases replied with
    | true => exact sent
    | false =>
      have idle : Current files c (if removed then s.remove slot else s) .idle := trivial
      exact sent.phase idle
  · cases taken

theorem sound_step (s : State) (e : Event) (t : State) (sound : Sound files c s) (tame : e.Tame)
    (taken : step asduaddr files c s e = some t) : Sound files c t := by
  cases e with
  | arrive l place => exact sound_arrive sound tame taken
  | list shown verdict => exact sound_list sound taken
  | read parser synced => exact sound_read sound taken
  | delete removed replied => exact sound_delete sound taken
  | sleep =>
    unfold step at taken
    dsimp only at taken
    split at taken
    · obtain rfl := Option.some.inj taken
      exact sound.phase trivial
    · cases taken
  | kill =>
    obtain rfl := Option.some.inj taken
    exact sound.phase trivial

theorem sound_init : Sound files c .init := by
  constructor
  · exact nofun
  · exact List.nodup_nil
  · exact List.Perm.refl _
  · exact nofun
  · trivial

theorem sound_of_run {events : List Event} (tame : ∀ e ∈ events, e.Tame)
    (reached : run (step asduaddr files c) .init events = some t) : Sound files c t :=
  guarded_invariant sound_step sound_init (guarded_of_mem tame _) reached

def onePoll : Poll := ⟨[(0, twelveDigits)], 1, some .ok⟩

theorem onePoll_lines : onePoll.lines .none codePoints =
    ["3:3805012345670:84:21020901533210:41F".toList, ['O', 'K']] := by
  have parsed : sortable (smsparse .none .unset onePoll.response).flatten =
      ["3:3805012345670:84:21020901533210::::41F".toList, ['O', 'K']] := by
    decide +kernel
  have records : onePoll.records .none codePoints =
      ["3:3805012345670:84:21020901533210::::41F".toList, ['O', 'K']] := by
    unfold Poll.records
    rw [parsed]
    apply List.mergeSort_of_pairwise
    decide +kernel
  have joined : smsjoin (readLines (Lines.join '\n'
      ["3:3805012345670:84:21020901533210::::41F".toList, ['O', 'K']])) =
        ["3:3805012345670:84:21020901533210:41F".toList, ['O', 'K']] := by
    decide +kernel
  have sorted : ["3:3805012345670:84:21020901533210:41F".toList, ['O', 'K']].mergeSort
      codePoints.le = ["3:3805012345670:84:21020901533210:41F".toList, ['O', 'K']] := by
    apply List.mergeSort_of_pairwise
    decide +kernel
  unfold Poll.lines
  rw [records, joined, sorted]
  decide +kernel

theorem twelveDigits_tame : Naming.Tame twelveDigits := nofun

def inFive : Listed :=
  { twelveDigits with index := ['5'], index_some := by decide, index_digits := by simp }

def oneDeleted : List Event :=
  [.read none true, .read none true, .arrive inFive 0, .delete true true]

def oneListed : State :=
  ⟨onePoll.sim, 1, [], [], .handling onePoll (onePoll.lines .none codePoints) [] 0⟩

theorem oneListed_reached (asduaddr : List Char → List Char) :
    step asduaddr .none codePoints ⟨onePoll.sim, 1, [], [], .idle⟩ (.list 1 (some .ok)) =
      some oneListed := by
  have replied : onePoll.response ≠ [] := by decide +kernel
  change (if onePoll.response = [] then some ⟨onePoll.sim, 1, [], [], .idle⟩ else
    some oneListed) = some oneListed
  rw [if_neg replied]

theorem oneDeleted_reached : ∃ t, run (step (fun _ => ['1']) .none codePoints) oneListed oneDeleted =
    some t ∧ t.deleted = [0] ∧ t.sim.map Prod.fst = [1] ∧ left t.phase = 0 := by
  have seen : (run (step (fun _ => ['1']) .none codePoints) oneListed oneDeleted).map
      (fun t => (t.deleted, t.sim.map Prod.fst, left t.phase)) = some ([0], [1], 0) := by
    rw [oneListed, onePoll_lines]
    decide +kernel
  obtain ⟨t, reached, values⟩ := Option.map_eq_some_iff.mp seen
  exact ⟨t, reached, congrArg Prod.fst values, congrArg (fun v => v.2.1) values,
    congrArg (fun v => v.2.2) values⟩

end Steps

section Clearing

variable {asduaddr : List Char → List Char} {files : Pathnames} {c : Collation} {s t : State}

def Event.turn : Event → Bool
  | .arrive _ _ => false
  | _ => true

/-- A step of a poll in which nothing fails; meanwhile messages can arrive. -/
def Event.Smooth : Event → Prop
  | .arrive _ _ => True
  | .read parser synced => smsdrop parser synced ≤ 2
  | .delete removed replied => removed = true ∧ replied = true
  | _ => False

/-- The lines in front of the one that passes for the end of the answer. -/
def front (lines : List (List Char)) : List (List Char) := lines.takeWhile fun line => ¬ Final line

/-- How far a poll is that began with the card as in `s`. -/
def Progress (files : Pathnames) (c : Collation) (s : State) (p : Poll) (t : State) : Phase → Prop
  | .idle => named (front (p.lines files c)) = [] ∧ s.sim ⊆ t.sim
  | .handling q lines listid smsnum =>
      q = p ∧ s.sim ⊆ t.sim ∧ (∀ a ∈ listid.getLast?, a = ' ') ∧
        ∃ before, p.lines files c = before ++ lines ∧ (∀ line ∈ before, ¬ Final line) ∧
          words isBlank listid = named before ∧ smsnum = before.length
  | .deleting q slots =>
      q = p ∧ ∃ gone, named (front (p.lines files c)) = gone ++ slots ∧
        ∀ e ∈ s.sim, (e ∈ t.sim ↔ e.2.index ∉ gone)

theorem front_append {before lines : List (List Char)} (go : ∀ line ∈ before, ¬ Final line) :
    front (before ++ lines) = before ++ front lines :=
  List.takeWhile_append_of_pos fun line inside => decide_eq_true (go line inside)

theorem choose_listid {p : Poll} {listid : List Char} (spaced : ∀ a ∈ listid.getLast?, a = ' ') :
    choose p listid = .deleting p (words isBlank listid) := by
  unfold choose
  rw [if_neg]
  rintro (rfl | rfl | rfl)
  · cases spaced 'y' rfl
  · cases spaced 'r' rfl
  · cases spaced 'f' rfl

theorem progress_deleting {p : Poll} {listid : List Char} {before : List (List Char)}
    (kept : s.sim ⊆ t.sim) (listed : words isBlank listid = named before)
    (whole : front (p.lines files c) = before) :
    Progress files c s p t (.deleting p (words isBlank listid)) := by
  refine ⟨rfl, [], ?_, fun e inside => ?_⟩
  · rw [whole, listed, List.nil_append]
  · exact ⟨fun _ => List.not_mem_nil, fun _ => kept inside⟩

theorem progress_choose {p : Poll} {line listid smslistid : List Char}
    {lines before : List (List Char)} (kept : s.sim ⊆ t.sim)
    (spaced : ∀ a ∈ listid.getLast?, a = ' ') (whole : p.lines files c = before ++ line :: lines)
    (go : ∀ line ∈ before, ¬ Final line) (listed : words isBlank listid = named before)
    (ok : ['O', 'K'] <:+: line)
    (ends : closing line listid before.length = some smslistid) :
    Progress files c s p t (choose p smslistid) ∧ left (choose p smslistid) ≤
      (words isBlank listid).length := by
  have final : Final line := .inl ok
  have stop : front (p.lines files c) = before := by
    rw [whole, front_append go, front, List.takeWhile_cons_of_neg (by simpa using final),
      List.append_nil]
  unfold closing at ends
  rw [if_pos ok] at ends
  obtain rfl := Option.some.inj ends
  split
  · rename_i none
    obtain rfl := List.eq_nil_of_length_eq_zero none
    exact ⟨⟨by rw [stop]; rfl, kept⟩, Nat.zero_le _⟩
  · rw [choose_listid spaced]
    exact ⟨progress_deleting kept listed stop, Nat.le_refl _⟩

/-- The lines have numbers, and the loop does not end at an error. -/
structure Clear (files : Pathnames) (c : Collation) (p : Poll) : Prop where
  numbers : ∀ line ∈ front (p.lines files c), ¬ Starves (field 2 line)
  ok : ∀ line ∈ (p.lines files c).find? (fun line => Final line), ['O', 'K'] <:+: line

variable {p : Poll} {u : State}

theorem progress_read (clear : Clear files c p) (progress : Progress files c s p t t.phase)
    {parser : Option Nat} {synced : Bool} (smooth : smsdrop parser synced ≤ 2)
    (taken : step asduaddr files c t (.read parser synced) = some u) :
    Progress files c s p u u.phase ∧ left u.phase + 1 ≤ left t.phase := by
  unfold step at taken
  dsimp only at taken
  split at taken
  · rename_i q listid smsnum phase
    obtain rfl := Option.some.inj taken
    rw [phase] at progress ⊢
    obtain ⟨rfl, kept, spaced, before, whole, go, listed, _⟩ := progress
    rw [List.append_nil] at whole
    have stop : front (q.lines files c) = before := by
      rw [whole, ← List.append_nil before, front_append go]
      rfl
    dsimp only
    rw [choose_listid spaced]
    refine ⟨progress_deleting kept listed stop, ?_⟩
    simp [left]
  · rename_i q line lines listid smsnum phase
    rw [phase] at progress ⊢
    obtain ⟨rfl, kept, spaced, before, whole, go, listed, rfl⟩ := progress
    split at taken
    · rename_i smslistid ends
      obtain rfl := Option.some.inj taken
      have final : Final line := by
        by_contra other
        unfold closing at ends
        rw [if_neg fun inside => other (.inl inside), if_neg fun inside => other (.inr inside)]
          at ends
        cases ends
      have first : (q.lines files c).find? (fun line => Final line) = some line := by
        rw [whole, List.find?_append, List.find?_eq_none.mpr (by simpa using go)]
        simp [final]
      obtain ⟨next, bound⟩ := progress_choose kept spaced whole go listed (clear.ok line first) ends
      refine ⟨next, ?_⟩
      change left (choose q smslistid) + 1 ≤
        (words isBlank listid).length + _ + (lines.length + 1) + 1
      omega
    · rename_i goes
      obtain rfl := Option.some.inj taken
      have go' := closing_none goes
      have inside : line ∈ front (q.lines files c) := by
        rw [whole, front_append go, front, List.takeWhile_cons_of_pos (by simpa using go')]
        exact List.mem_append_right _ List.mem_cons_self
      have settles : Settles (handle asduaddr line parser synced) := by
        unfold handle
        split
        · rintro status ⟨⟩
          exact smooth
        · exact nofun
      have entered : words isBlank (listid ++ field 1 line ++ [' ']) =
          words isBlank listid ++ ids line := words_listid spaced (field 1 line)
      dsimp only
      rw [if_neg (clear.numbers line inside), if_pos settles]
      refine ⟨⟨rfl, kept, by simp, before ++ [line], by simpa using whole, ?_, ?_, by simp⟩, ?_⟩
      · intro l member
        rcases List.mem_append.mp member with old | new
        · exact go l old
        · obtain rfl := List.mem_singleton.mp new
          exact go'
      · rw [entered, listed, named_append, named_cons go']
        exact congrArg _ (List.append_nil _).symm
      · dsimp only [left]
        rw [entered, List.flatMap_cons, List.length_append, List.length_append, List.length_cons]
        omega
  · cases taken

theorem progress_delete (progress : Progress files c s p t t.phase)
    (taken : step asduaddr files c t (.delete true true) = some u) :
    Progress files c s p u u.phase ∧ left u.phase + 1 ≤ left t.phase := by
  unfold step at taken
  dsimp only at taken
  split at taken
  · rename_i q slot slots phase
    obtain rfl := Option.some.inj taken
    rw [phase] at progress ⊢
    obtain ⟨rfl, gone, whole, rest⟩ := progress
    refine ⟨⟨rfl, gone ++ [slot], by rw [whole]; simp, fun e inside => ?_⟩, Nat.le_refl _⟩
    change e ∈ t.sim.filter (fun e => e.2.index ≠ slot) ↔ _
    rw [List.mem_filter, rest e inside, List.mem_append, List.mem_singleton]
    simp [not_or]
  · cases taken

theorem progress_arrive (progress : Progress files c s p t t.phase)
    (fresh : ∀ e ∈ s.sim, e.1 < t.arrived) {l : Listed} {place : Nat}
    (taken : step asduaddr files c t (.arrive l place) = some u) :
    Progress files c s p u u.phase ∧ u.phase = t.phase := by
  simp only [step, Option.ite_none_left_eq_some, Option.some.injEq] at taken
  obtain ⟨_, rfl⟩ := taken
  refine ⟨?_, rfl⟩
  have added := placed_perm t.sim place (t.arrived, l)
  have same (e : Nat × Listed) (inside : e ∈ s.sim) :
      e ∈ t.sim.take place ++ (t.arrived, l) :: t.sim.drop place ↔ e ∈ t.sim := by
    rw [added.mem_iff, List.mem_cons]
    refine or_iff_right ?_
    rintro rfl
    exact absurd (fresh _ inside) (Nat.lt_irrefl _)
  dsimp only
  cases phase : t.phase with
  | idle =>
    rw [phase] at progress
    exact ⟨progress.1, fun e inside => (same e inside).mpr (progress.2 inside)⟩
  | handling q lines listid smsnum =>
    rw [phase] at progress
    obtain ⟨own, kept, rest⟩ := progress
    exact ⟨own, fun e inside => (same e inside).mpr (kept inside), rest⟩
  | deleting q slots =>
    rw [phase] at progress
    obtain ⟨own, gone, whole, rest⟩ := progress
    exact ⟨own, gone, whole, fun e inside => (same e inside).trans (rest e inside)⟩

theorem arrived_le {e : Event} (taken : step asduaddr files c t e = some u) :
    t.arrived ≤ u.arrived := by
  unfold step at taken
  cases e <;> grind [State.remove]

theorem progress_run (clear : Clear files c p) {events : List Event}
    (smooth : ∀ e ∈ events, e.Smooth) (progress : Progress files c s p t t.phase)
    (fresh : ∀ e ∈ s.sim, e.1 < t.arrived)
    (reached : run (step asduaddr files c) t events = some u) :
    Progress files c s p u u.phase ∧ events.countP Event.turn + left u.phase ≤ left t.phase := by
  induction events generalizing t with
  | nil =>
    obtain rfl := Option.some.inj reached
    exact ⟨progress, by simp⟩
  | cons e events ih =>
    obtain ⟨m, taken, rest⟩ := Option.bind_eq_some_iff.mp reached
    obtain ⟨now, later⟩ := List.forall_mem_cons.mp smooth
    cases e with
    | arrive l place =>
      obtain ⟨next, phase⟩ := progress_arrive progress fresh taken
      obtain ⟨ends, bound⟩ := ih later next
        (fun e inside => Nat.lt_of_lt_of_le (fresh e inside) (arrived_le taken)) rest
      exact ⟨ends, by rw [← phase]; simpa [Event.turn] using bound⟩
    | read parser synced =>
      obtain ⟨next, less⟩ := progress_read clear progress now taken
      obtain ⟨ends, bound⟩ := ih later next
        (fun e inside => Nat.lt_of_lt_of_le (fresh e inside) (arrived_le taken)) rest
      refine ⟨ends, ?_⟩
      rw [List.countP_cons_of_pos rfl]
      omega
    | delete removed replied =>
      obtain ⟨rfl, rfl⟩ := now
      obtain ⟨next, less⟩ := progress_delete progress taken
      obtain ⟨ends, bound⟩ := ih later next
        (fun e inside => Nat.lt_of_lt_of_le (fresh e inside) (arrived_le taken)) rest
      refine ⟨ends, ?_⟩
      rw [List.countP_cons_of_pos rfl]
      omega
    | list shown verdict => exact now.elim
    | sleep => exact now.elim
    | kill => exact now.elim

/-- A poll in which nothing fails takes as many turns as its lines and slots allow, and then the
messages are gone that are named in front of the line that passes for the end of the answer, and
no others, whatever arrived meanwhile. -/
theorem poll_clears {past events : List Event} {shown : Nat} {verdict : Option Verdict}
    (tame : ∀ e ∈ past, e.Tame) (begun : run (step asduaddr files c) .init past = some s)
    (idle : s.phase = .idle)
    (listed : p = ⟨s.sim, shown, verdict⟩) (replied : p.response ≠ []) (clear : Clear files c p)
    (smooth : ∀ e ∈ events, e.Smooth)
    (reached : run (step asduaddr files c) s (.list shown verdict :: events) = some t) :
    events.countP Event.turn + left t.phase ≤ left (.handling p (p.lines files c) [] 0) ∧
      (left t.phase ≠ 0 → ∃ e : Event, e.turn = true ∧ e.Smooth ∧
        (step asduaddr files c t e).isSome = true) ∧
      (left t.phase = 0 → ∀ e ∈ s.sim,
        (e ∈ t.sim ↔ e.2.index ∉ named (front (p.lines files c)))) := by
  subst listed
  have sound := sound_of_run tame begun
  obtain ⟨m, taken, rest⟩ := Option.bind_eq_some_iff.mp reached
  simp only [step, idle, if_neg replied, Option.some.injEq] at taken
  have start : Progress files c s ⟨s.sim, shown, verdict⟩ m m.phase := by
    subst taken
    exact ⟨rfl, List.Subset.refl _, nofun, [], rfl, nofun, rfl, rfl⟩
  have fresh (e : Nat × Listed) (inside : e ∈ s.sim) : e.1 < m.arrived := by
    have known := sound.accounted.mem_iff.mp
      (List.mem_append_left s.deleted (List.mem_map_of_mem inside))
    subst taken
    exact List.mem_range.mp known
  obtain ⟨progress, bound⟩ := progress_run clear smooth start fresh rest
  subst taken
  refine ⟨bound, ?_, ?_⟩
  · intro more
    cases phase : t.phase with
    | idle => exact absurd (by rw [phase]; rfl) more
    | handling q lines listid smsnum =>
      refine ⟨.read none true, rfl, (by decide : smsdrop none true ≤ 2), ?_⟩
      cases lines with
      | nil => simp [step, phase]
      | cons line lines =>
        simp only [step, phase]
        split <;> rfl
    | deleting q slots =>
      cases slots with
      | nil => exact absurd (by rw [phase]; rfl) more
      | cons slot slots => exact ⟨.delete true true, rfl, ⟨rfl, rfl⟩, by simp [step, phase]⟩
  · intro none e inside
    cases phase : t.phase with
    | idle =>
      rw [phase] at progress
      rw [progress.1]
      exact ⟨fun _ => List.not_mem_nil, fun _ => progress.2 inside⟩
    | handling q lines listid smsnum =>
      rw [phase, left] at none
      omega
    | deleting q slots =>
      rw [phase] at progress none
      obtain ⟨_, gone, whole, rest⟩ := progress
      obtain rfl := List.eq_nil_of_length_eq_zero none
      rw [whole, List.append_nil]
      exact rest e inside

theorem poll_clears_oneDeleted : ∃ t, run (step (fun _ => ['1']) .none codePoints)
    ⟨onePoll.sim, 1, [], [], .idle⟩ (.list 1 (some .ok) :: oneDeleted) = some t ∧
      ∀ e ∈ onePoll.sim,
        (e ∈ t.sim ↔ e.2.index ∉ named (front (onePoll.lines .none codePoints))) := by
  obtain ⟨t, rest, _, _, done⟩ := oneDeleted_reached
  have begun : run (step (fun _ => ['1']) .none codePoints) .init [.arrive twelveDigits 0] =
      some ⟨onePoll.sim, 1, [], [], .idle⟩ := rfl
  have tame : ∀ e ∈ [Event.arrive twelveDigits 0], e.Tame := by
    simp [Event.Tame, twelveDigits_tame]
  have replied : onePoll.response ≠ [] := by decide +kernel
  have clear : Clear .none codePoints onePoll := by
    constructor
    · rw [onePoll_lines]
      decide +kernel
    · rw [onePoll_lines]
      decide +kernel
  have smooth : ∀ e ∈ oneDeleted, e.Smooth := by
    simp [oneDeleted, Event.Smooth, smsdrop]
  have reached : run (step (fun _ => ['1']) .none codePoints) ⟨onePoll.sim, 1, [], [], .idle⟩
      (.list 1 (some .ok) :: oneDeleted) = some t := by
    rw [run_cons, oneListed_reached]
    exact rest
  exact ⟨t, reached, (poll_clears tame begun rfl rfl replied clear smooth reached).2.2 done⟩

end Clearing

end IecUtils.Sms.Deletion
