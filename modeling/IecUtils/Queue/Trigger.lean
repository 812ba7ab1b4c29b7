/- Module: IecUtils/Queue/Trigger
   source: the trigger handling of main in quemngr/quemngr.c, putqueue of scripts/utils/db_utils
   digest: quemngr remakes its trigger among any number of writers: no notification is lost, but a writer may hang. -/

import IecUtils.Foundation.NamedPipe
import IecUtils.Foundation.Transition

set_option autoImplicit false
set_option relaxedAutoImplicit false

namespace IecUtils.Queue.Trigger

open IecUtils.Foundation.LinkTable (Errno)
open IecUtils.Foundation.NamedPipe
open IecUtils.Foundation.Transition

/-- How far a run of `putqueue` is with its file: renamed into `drop`, waiting in the
redirection, past it, or past its attempt to write. -/
inductive Writer where
  | renamed
  | blocked (o : Nat)
  | opened (o : Nat)
  | finished
  deriving DecidableEq

/-- Where quemngr is: at `poll` with the trigger open, after each of the calls of its
handler, or in `scan_drop`, which SIGUSR1 also starts. `seen` are the files that were in
`drop` when the directory was opened. -/
inductive Stage where
  | watching
  | closed
  | unlinked
  | made
  | reopened
  | scanning (seen : List Nat)
  | rescanning (seen : List Nat)
  | exited
  deriving DecidableEq

/-- Each writer is known by the number of its file. -/
structure TriggerState where
  trigger : Pipe
  stage : Stage
  drop : List Nat
  writers : List Writer
  deriving DecidableEq

inductive TriggerEvent where
  | rename
  | redirect (n : Nat)
  | write (n : Nat)
  | pollin
  | unlink
  | mkfifo
  | reopen
  | opendir
  | sigusr1
  | take (n : Nat)
  | closedir

/-- A reader has opened file `o`. -/
def Writer.release (o : Nat) : Writer → Writer
  | .blocked p => if p = o then .opened o else .blocked p
  | w => w

def writerStep (s : TriggerState) : TriggerEvent → Option TriggerState
  | .rename =>
      some { s with drop := s.drop ++ [s.writers.length], writers := s.writers ++ [.renamed] }
  | .redirect n =>
      if s.writers[n]? = some .renamed then
        match openWrite s.trigger with
        | (p, .opened o) => some { s with trigger := p, writers := s.writers.set n (.opened o) }
        | (p, .blocked o) => some { s with trigger := p, writers := s.writers.set n (.blocked o) }
      else none
  | .write n =>
      match s.writers[n]? with
      | some (.opened o) =>
          some { s with
            trigger := Foundation.NamedPipe.write s.trigger o
            writers := s.writers.set n .finished }
      | _ => none
  | _ => none

def handlerStep (s : TriggerState) : TriggerEvent → Stage → Option TriggerState
  | .pollin, .watching =>
      if readable s.trigger then
        some { s with trigger := closeRead s.trigger, stage := .closed }
      else none
  | .unlink, .closed =>
      match Foundation.NamedPipe.unlink s.trigger with
      | .ok p => some { s with trigger := p, stage := .unlinked }
      | .error _ => some { s with stage := .exited }
  | .mkfifo, .unlinked =>
      match Foundation.NamedPipe.mkfifo s.trigger with
      | .ok p => some { s with trigger := p, stage := .made }
      | .error .exist => some { s with stage := .made }
      | .error _ => some { s with stage := .exited }
  | .reopen, .made =>
      match openRead s.trigger with
      | .ok p =>
          some { s with
            trigger := p
            stage := .reopened
            writers := match p.reader with
              | some o => s.writers.map (Writer.release o)
              | none => s.writers }
      | .error _ => some { s with stage := .exited }
  | .opendir, .reopened => some { s with stage := .scanning s.drop }
  | .sigusr1, .watching => some { s with stage := .rescanning s.drop }
  | .take n, .scanning _ => if n ∈ s.drop then some { s with drop := s.drop.erase n } else none
  | .take n, .rescanning _ => if n ∈ s.drop then some { s with drop := s.drop.erase n } else none
  | .closedir, .scanning seen =>
      if ∀ n ∈ seen, n ∉ s.drop then some { s with stage := .watching } else none
  | .closedir, .rescanning seen =>
      if ∀ n ∈ seen, n ∉ s.drop then some { s with stage := .watching } else none
  | _, _ => none

def triggerStep (s : TriggerState) (e : TriggerEvent) : Option TriggerState :=
  match e with
  | .rename => writerStep s .rename
  | .redirect n => writerStep s (.redirect n)
  | .write n => writerStep s (.write n)
  | e => handlerStep s e s.stage

def triggerStart : TriggerState where
  trigger := ⟨[⟨.fifo, 0⟩], some 0, some 0⟩
  stage := .watching
  drop := []
  writers := []

/-- Between the close of the trigger and the end of the scan that follows. -/
def Stage.handling : Stage → Prop
  | .closed => True
  | .unlinked => True
  | .made => True
  | .reopened => True
  | .scanning _ => True
  | _ => False

/-- A scan is to come, or running, that takes file `n` if it is in `drop`. -/
def Stage.upcoming (n : Nat) : Stage → Prop
  | .unlinked => True
  | .made => True
  | .reopened => True
  | .scanning seen => n ∈ seen
  | _ => False

def Stage.ends (p : Pipe) : Stage → Prop
  | .closed => (∃ o, p.linked = some o) ∧ p.reader = none
  | .unlinked => p.reader = none
  | .made => (∃ o, p.linked = some o) ∧ p.reader = none
  | .exited => False
  | _ => ∃ o, p.linked = some o ∧ p.reader = some o

def Noted (s : TriggerState) (n : Nat) : Prop := n ∉ s.drop ∨ s.stage.upcoming n

/-- What is certain about the notification of writer `n`. A file that the path no longer
names was unlinked after the writer had opened it, and the scan comes after that. -/
def Placed (s : TriggerState) (n : Nat) : Writer → Prop
  | .renamed => True
  | .blocked o => s.trigger.linked = some o ∨ Noted s n
  | .opened o => s.trigger.linked = some o ∨ Noted s n
  | .finished => readable s.trigger = true ∨ s.stage = .closed ∨ Noted s n

structure Tended (s : TriggerState) : Prop where
  valid : Valid s.trigger
  ends : s.stage.ends s.trigger
  placed : ∀ n w, s.writers[n]? = some w → Placed s n w

section Writers

variable {s t : TriggerState} {n : Nat}

private theorem Tended.moves (h : Tended s) {p : Pipe} {w : Writer} (valid : Valid p)
    (reader : p.reader = s.trigger.reader)
    (linked : ∀ o, s.trigger.linked = some o → p.linked = some o)
    (ready : readable s.trigger = true → readable p = true)
    (placed : Placed { s with trigger := p } n w) :
    Tended { s with trigger := p, writers := s.writers.set n w } := by
  refine ⟨valid, ?_, ?_⟩
  · have ends := h.ends
    simp only
    cases stage : s.stage with
    | closed =>
      rw [stage] at ends
      obtain ⟨⟨o, path⟩, none⟩ := ends
      exact ⟨⟨o, linked o path⟩, reader.trans none⟩
    | unlinked =>
      rw [stage] at ends
      exact reader.trans ends
    | made =>
      rw [stage] at ends
      obtain ⟨⟨o, path⟩, none⟩ := ends
      exact ⟨⟨o, linked o path⟩, reader.trans none⟩
    | exited =>
      rw [stage] at ends
      exact ends
    | _ =>
      rw [stage] at ends
      obtain ⟨o, path, open'⟩ := ends
      exact ⟨o, linked o path, reader.trans open'⟩
  · intro k v found
    simp only at found
    by_cases own : n = k
    · subst own
      rw [List.getElem?_set, if_pos rfl] at found
      split at found
      · obtain rfl := Option.some.inj found
        cases w with
        | renamed => trivial
        | blocked o => exact placed
        | opened o => exact placed
        | finished => exact placed
      · cases found
    · rw [List.getElem?_set_ne own] at found
      have before := h.placed k v found
      cases v with
      | renamed => trivial
      | blocked o => exact before.imp_left (linked o)
      | opened o => exact before.imp_left (linked o)
      | finished => exact before.imp_left ready

private theorem tended_rename (h : Tended s) :
    Tended { s with drop := s.drop ++ [s.writers.length], writers := s.writers ++ [.renamed] } := by
  refine ⟨h.valid, h.ends, ?_⟩
  intro k v found
  simp only at found
  by_cases own : k = s.writers.length
  · subst own
    rw [List.getElem?_append_right (Nat.le_refl _), Nat.sub_self] at found
    obtain rfl := Option.some.inj found
    trivial
  · have inside : k < s.writers.length := by
      have bound := (List.getElem?_eq_some_iff.mp found).1
      rw [List.length_append, List.length_singleton] at bound
      omega
    rw [List.getElem?_append_left inside] at found
    have before := h.placed k v found
    have noted (noted : Noted s k) : Noted
        { s with drop := s.drop ++ [s.writers.length], writers := s.writers ++ [.renamed] } k := by
      refine noted.imp_left ?_
      intro gone member
      rcases List.mem_append.mp member with old | new
      · exact gone old
      · exact own (List.mem_singleton.mp new)
    cases v with
    | renamed => trivial
    | blocked o => exact before.imp_right noted
    | opened o => exact before.imp_right noted
    | finished => exact before.imp_right fun later => later.imp_right noted

private theorem tended_redirect (h : Tended s) (happens : writerStep s (.redirect n) = some t) :
    Tended t := by
  simp only [writerStep] at happens
  split at happens
  · obtain ⟨o, path, linked, reader, valid, ready, result⟩ := openWrite_spec h.valid
    generalize openWrite s.trigger = opening at happens path reader valid ready result linked
    obtain ⟨p, r⟩ := opening
    simp only at path reader valid ready result linked
    rcases result with rfl | ⟨rfl, _⟩
    · obtain rfl := Option.some.inj happens
      exact h.moves valid reader linked ready (.inl path)
    · obtain rfl := Option.some.inj happens
      exact h.moves valid reader linked ready (.inl path)
  · cases happens

/-- A writer that has opened the reader's file makes it readable. In the other stages
its file is noted anyway. -/
private theorem tended_write (h : Tended s) (happens : writerStep s (.write n) = some t) :
    Tended t := by
  simp only [writerStep] at happens
  split at happens
  · rename_i o found
    obtain rfl := Option.some.inj happens
    obtain ⟨linked, reader, valid, ready⟩ := write_spec h.valid o
    refine h.moves valid reader (fun r named => linked.trans named) (fun was => ready (.inl was)) ?_
    have before : s.trigger.linked = some o ∨ Noted s n := h.placed n _ found
    rcases before with named | noted
    · have ends := h.ends
      cases stage : s.stage with
      | closed => exact .inr (.inl rfl)
      | unlinked => exact .inr (.inr (.inr trivial))
      | made => exact .inr (.inr (.inr trivial))
      | exited =>
        rw [stage] at ends
        exact ends.elim
      | _ =>
        rw [stage] at ends
        obtain ⟨r, path, reads⟩ := ends
        obtain rfl := Option.some.inj (path.symm.trans named)
        exact .inl (ready (.inr reads))
    · exact .inr (.inr noted)
  · cases happens

end Writers

section Handler

variable {s t : TriggerState}

private theorem Tended.goes (h : Tended s) (valid : Valid t.trigger)
    (ends : t.stage.ends t.trigger) (writers : t.writers = s.writers)
    (linked : ∀ n o, s.trigger.linked = some o → t.trigger.linked = some o ∨ Noted t n)
    (ready : ∀ n, readable s.trigger = true → Placed t n .finished)
    (closed : ∀ n, s.stage = .closed → Placed t n .finished)
    (noted : ∀ n, Noted s n → Noted t n) : Tended t := by
  refine ⟨valid, ends, ?_⟩
  intro n w found
  rw [writers] at found
  have before := h.placed n w found
  cases w with
  | renamed => trivial
  | blocked o => exact before.elim (linked n o) fun was => .inr (noted n was)
  | opened o => exact before.elim (linked n o) fun was => .inr (noted n was)
  | finished =>
    rcases before with was | shut | was
    · exact ready n was
    · exact closed n shut
    · exact .inr (.inr (noted n was))

private theorem tended_pollin (h : Tended s) (stage : s.stage = .watching) :
    Tended { s with trigger := closeRead s.trigger, stage := .closed } := by
  have ends := h.ends
  rw [stage] at ends
  obtain ⟨o, path, _⟩ := ends
  refine h.goes ⟨h.valid.linked, ?_⟩ ⟨⟨o, path⟩, rfl⟩ rfl (fun n r named => .inl named)
    (fun n _ => .inr (.inl rfl)) (fun n _ => .inr (.inl rfl)) ?_
  · intro r reads
    cases reads
  · intro n was
    rw [Noted, stage] at was
    exact was.imp_right fun no => no.elim

private theorem tended_unlink (h : Tended s) (stage : s.stage = .closed)
    (happens : handlerStep s .unlink .closed = some t) : Tended t := by
  have ends := h.ends
  rw [stage] at ends
  obtain ⟨⟨o, path⟩, none⟩ := ends
  simp only [handlerStep, unlink_linked path] at happens
  obtain rfl := Option.some.inj happens
  refine h.goes ⟨?_, h.valid.reader⟩ none rfl (fun n r _ => .inr (.inr trivial))
    (fun n _ => .inr (.inr (.inr trivial))) (fun n _ => .inr (.inr (.inr trivial)))
    (fun n _ => .inr trivial)
  intro r named
  cases named

private theorem tended_mkfifo (h : Tended s) (stage : s.stage = .unlinked)
    (happens : handlerStep s .mkfifo .unlinked = some t) : Tended t := by
  have none := h.ends
  rw [stage] at none
  simp only [handlerStep] at happens
  split at happens
  · rename_i p done
    obtain rfl := Option.some.inj happens
    obtain ⟨_, rfl⟩ := mkfifo_ok done
    refine h.goes ⟨?_, ?_⟩ ⟨⟨_, rfl⟩, none⟩ rfl (fun n r _ => .inr (.inr trivial))
      (fun n _ => .inr (.inr (.inr trivial))) (fun n _ => .inr (.inr (.inr trivial)))
      (fun n _ => .inr trivial)
    · intro r named
      obtain rfl := Option.some.inj named
      simp
    · intro r reads
      cases none.symm.trans reads
  · rename_i taken
    obtain rfl := Option.some.inj happens
    obtain ⟨_, o, path⟩ := mkfifo_error taken
    exact h.goes h.valid ⟨⟨o, path⟩, none⟩ rfl (fun n r _ => .inr (.inr trivial))
      (fun n _ => .inr (.inr (.inr trivial))) (fun n _ => .inr (.inr (.inr trivial)))
      (fun n _ => .inr trivial)
  · rename_i e other failed
    exact absurd (mkfifo_error failed).1 other

private theorem release_cases (o : Nat) (w : Writer) :
    Writer.release o w = w ∨ w = .blocked o ∧ Writer.release o w = .opened o := by
  cases w with
  | blocked p =>
    by_cases same : p = o
    · subst same
      exact .inr ⟨rfl, if_pos rfl⟩
    · exact .inl (if_neg same)
  | _ => exact .inl rfl

private theorem tended_reopen (h : Tended s) (stage : s.stage = .made)
    (happens : handlerStep s .reopen .made = some t) : Tended t := by
  have ends := h.ends
  rw [stage] at ends
  obtain ⟨⟨o, path⟩, none⟩ := ends
  simp only [handlerStep, openRead_linked path] at happens
  obtain rfl := Option.some.inj happens
  refine ⟨⟨h.valid.linked, ?_⟩, ⟨o, path, rfl⟩, ?_⟩
  · intro r reads
    obtain rfl := Option.some.inj reads
    exact h.valid.linked o path
  · intro n w found
    have noted : Noted { s with
        trigger := { s.trigger with reader := some o }
        stage := .reopened
        writers := s.writers.map (Writer.release o) } n := .inr trivial
    cases w with
    | renamed => trivial
    | blocked r => exact .inr noted
    | opened r => exact .inr noted
    | finished => exact .inr (.inr noted)

private theorem tended_opendir (h : Tended s) (stage : s.stage = .reopened) :
    Tended { s with stage := .scanning s.drop } := by
  have ends := h.ends
  rw [stage] at ends
  have noted (n : Nat) : Noted { s with stage := .scanning s.drop } n :=
    (Decidable.em (n ∈ s.drop)).symm
  exact h.goes h.valid ends rfl (fun n o named => .inl named)
    (fun n _ => .inr (.inr (noted n))) (fun n _ => .inr (.inr (noted n))) (fun n _ => noted n)

private theorem tended_sigusr1 (h : Tended s) (stage : s.stage = .watching) :
    Tended { s with stage := .rescanning s.drop } := by
  have ends := h.ends
  rw [stage] at ends
  refine h.goes h.valid ends rfl (fun n o named => .inl named) (fun n ready => .inl ready) ?_ ?_
  · intro n shut
    cases stage.symm.trans shut
  · intro n was
    rw [Noted, stage] at was
    exact was.imp_right fun no => no.elim

private theorem tended_take (h : Tended s) (n : Nat) :
    Tended { s with drop := s.drop.erase n } := by
  have noted (k : Nat) (was : Noted s k) : Noted { s with drop := s.drop.erase n } k :=
    was.imp_left fun gone member => gone (List.mem_of_mem_erase member)
  exact h.goes h.valid h.ends rfl (fun k o named => .inl named) (fun k ready => .inl ready)
    (fun k shut => .inr (.inl shut)) noted

private theorem tended_closedir (h : Tended s) {seen : List Nat}
    (stage : s.stage = .scanning seen ∨ s.stage = .rescanning seen)
    (gone : ∀ n ∈ seen, n ∉ s.drop) : Tended { s with stage := .watching } := by
  have ends := h.ends
  refine h.goes h.valid ?_ rfl (fun n o named => .inl named) (fun n ready => .inl ready) ?_ ?_
  · rcases stage with scan | scan <;> rw [scan] at ends <;> exact ends
  · intro n shut
    rcases stage with scan | scan <;> cases scan.symm.trans shut
  · intro n was
    rcases was with taken | later
    · exact .inl taken
    · rcases stage with scan | scan
      · rw [scan] at later
        exact .inl (gone n later)
      · rw [scan] at later
        exact later.elim

private theorem handlerStep_cases {e : TriggerEvent} (happens : handlerStep s e s.stage = some t) :
    (s.stage = .watching ∧ readable s.trigger = true ∧
      t = { s with trigger := closeRead s.trigger, stage := .closed }) ∨
    (s.stage = .closed ∧ handlerStep s .unlink .closed = some t) ∨
    (s.stage = .unlinked ∧ handlerStep s .mkfifo .unlinked = some t) ∨
    (s.stage = .made ∧ handlerStep s .reopen .made = some t) ∨
    (s.stage = .reopened ∧ t = { s with stage := .scanning s.drop }) ∨
    (s.stage = .watching ∧ t = { s with stage := .rescanning s.drop }) ∨
    (∃ n, t = { s with drop := s.drop.erase n }) ∨
    (∃ seen, (s.stage = .scanning seen ∨ s.stage = .rescanning seen) ∧
      (∀ n ∈ seen, n ∉ s.drop) ∧ t = { s with stage := .watching }) := by
  obtain ⟨now, stage⟩ : ∃ now, s.stage = now := ⟨_, rfl⟩
  rw [stage] at happens
  unfold handlerStep at happens
  split at happens
  · split at happens
    · rename_i ready
      exact .inl ⟨stage, ready, (Option.some.inj happens).symm⟩
    · cases happens
  · exact .inr (.inl ⟨stage, happens⟩)
  · exact .inr (.inr (.inl ⟨stage, happens⟩))
  · exact .inr (.inr (.inr (.inl ⟨stage, happens⟩)))
  · exact .inr (.inr (.inr (.inr (.inl ⟨stage, (Option.some.inj happens).symm⟩))))
  · exact .inr (.inr (.inr (.inr (.inr (.inl ⟨stage, (Option.some.inj happens).symm⟩)))))
  · rename_i n seen
    split at happens
    · exact .inr (.inr (.inr (.inr (.inr (.inr (.inl ⟨n, (Option.some.inj happens).symm⟩))))))
    · cases happens
  · rename_i n seen
    split at happens
    · exact .inr (.inr (.inr (.inr (.inr (.inr (.inl ⟨n, (Option.some.inj happens).symm⟩))))))
    · cases happens
  · rename_i seen
    split at happens
    · rename_i gone
      exact .inr (.inr (.inr (.inr (.inr (.inr (.inr
        ⟨seen, .inl stage, gone, (Option.some.inj happens).symm⟩))))))
    · cases happens
  · rename_i seen
    split at happens
    · rename_i gone
      exact .inr (.inr (.inr (.inr (.inr (.inr (.inr
        ⟨seen, .inr stage, gone, (Option.some.inj happens).symm⟩))))))
    · cases happens
  · cases happens

private theorem tended_handler {e : TriggerEvent} (h : Tended s)
    (happens : handlerStep s e s.stage = some t) : Tended t := by
  rcases handlerStep_cases happens with ⟨stage, _, rfl⟩ | ⟨stage, call⟩ | ⟨stage, call⟩ |
    ⟨stage, call⟩ | ⟨stage, rfl⟩ | ⟨stage, rfl⟩ | ⟨n, rfl⟩ | ⟨_, stage, gone, rfl⟩
  · exact tended_pollin h stage
  · exact tended_unlink h stage call
  · exact tended_mkfifo h stage call
  · exact tended_reopen h stage call
  · exact tended_opendir h stage
  · exact tended_sigusr1 h stage
  · exact tended_take h n
  · exact tended_closedir h stage gone

end Handler

private theorem tended_start : Tended triggerStart := by
  refine ⟨⟨?_, ?_⟩, ⟨0, rfl, rfl⟩, ?_⟩
  · intro o named
    obtain rfl := Option.some.inj named
    exact Nat.one_pos
  · intro o named
    obtain rfl := Option.some.inj named
    exact Nat.one_pos
  · intro n w found
    cases found

private theorem tended_step {s t : TriggerState} {e : TriggerEvent} (h : Tended s)
    (happens : triggerStep s e = some t) : Tended t := by
  unfold triggerStep at happens
  split at happens
  · obtain rfl := Option.some.inj happens
    exact tended_rename h
  · exact tended_redirect h happens
  · exact tended_write h happens
  · exact tended_handler h happens

/-- A writer that is through with its attempt to write has been noticed: its file is out
of `drop`, or the trigger polls readable, or the handler is at work and its scan is still
to end. -/
theorem finished_noticed {s : TriggerState} {es : List TriggerEvent} {n : Nat}
    (reached : run triggerStep triggerStart es = some s)
    (finished : s.writers[n]? = some .finished) :
    n ∉ s.drop ∨ readable s.trigger = true ∨ s.stage.handling := by
  have tended := run_invariant (fun _ _ _ h => tended_step h) tended_start reached
  have placed : readable s.trigger = true ∨ s.stage = .closed ∨ Noted s n :=
    tended.placed n .finished finished
  rcases placed with ready | shut | gone | later
  · exact .inr (.inl ready)
  · refine .inr (.inr ?_)
    rw [shut]
    trivial
  · exact .inl gone
  · refine .inr (.inr ?_)
    cases stage : s.stage with
    | unlinked => trivial
    | made => trivial
    | reopened => trivial
    | scanning seen => trivial
    | _ =>
      rw [stage] at later
      exact later.elim

/-- A writer opens the trigger after the unlink and makes a regular file of it, which
stands in for the FIFO from then on. -/
def regularRun : List TriggerEvent :=
  [.rename, .redirect 0, .write 0, .pollin, .unlink, .rename, .redirect 1, .mkfifo, .reopen,
    .opendir, .rename, .redirect 2, .take 0, .take 1, .closedir, .write 2]

theorem finished_noticed_regular : ∃ s, run triggerStep triggerStart regularRun = some s ∧
    s.writers[2]? = some .finished ∧ 2 ∈ s.drop ∧ s.trigger.nodes[1]? = some ⟨.regular, 1⟩ ∧
    (2 ∉ s.drop ∨ readable s.trigger = true ∨ s.stage.handling) := by
  refine ⟨_, rfl, rfl, by decide, rfl, ?_⟩
  exact @finished_noticed _ regularRun 2 rfl rfl

/-- Writer `n` waits for a reader of a file that the path does not name and that quemngr
does not have open. -/
def Hung (s : TriggerState) (n : Nat) : Prop :=
  ∃ o, s.writers[n]? = some (.blocked o) ∧ s.trigger.linked ≠ some o ∧ s.trigger.reader ≠ some o

/-- The second writer comes between the close of the trigger and the unlink. -/
def hangingRun : List TriggerEvent :=
  [.rename, .rename, .redirect 0, .write 0, .pollin, .redirect 1, .unlink]

theorem hangingRun_hung : ∃ s, run triggerStep triggerStart hangingRun = some s ∧ Hung s 1 := by
  refine ⟨_, rfl, 0, rfl, by decide, by decide⟩

/-- No writer opens the trigger between quemngr's close and its unlink, unless the path
names a regular file. -/
def Timely (s : TriggerState) : TriggerEvent → Prop
  | .redirect _ => ¬ (s.stage = .closed ∧ fifoLinked s.trigger = true)
  | _ => True

instance (s : TriggerState) (e : TriggerEvent) : Decidable (Timely s e) := by
  cases e <;> unfold Timely <;> infer_instance

/-- Writers wait only between mkfifo and open, for the FIFO that the path names. -/
structure Awaited (s : TriggerState) : Prop where
  tended : Tended s
  blocked : ∀ n o : Nat, s.writers[n]? = some (.blocked o) →
    s.stage = .made ∧ s.trigger.linked = some o
  fresh : s.stage = .unlinked → fifoLinked s.trigger = false

section Waiting

variable {s t : TriggerState} {n : Nat}

private theorem Tended.unread (h : Tended s) {o : Nat} (path : s.trigger.linked = some o)
    (away : s.trigger.reader ≠ some o) :
    s.stage = .closed ∨ s.stage = .unlinked ∨ s.stage = .made := by
  have ends := h.ends
  cases stage : s.stage with
  | closed => exact .inl rfl
  | unlinked => exact .inr (.inl rfl)
  | made => exact .inr (.inr rfl)
  | exited =>
    rw [stage] at ends
    exact ends.elim
  | _ =>
    rw [stage] at ends
    obtain ⟨r, named, reads⟩ := ends
    obtain rfl := Option.some.inj (named.symm.trans path)
    exact absurd reads away

private theorem Awaited.moves (h : Awaited s) {p : Pipe} {w : Writer}
    (tended : Tended { s with trigger := p, writers := s.writers.set n w })
    (linked : ∀ o, s.trigger.linked = some o → p.linked = some o)
    (kind : fifoLinked p = fifoLinked s.trigger)
    (waits : ∀ o, w = .blocked o → s.stage = .made ∧ p.linked = some o) :
    Awaited { s with trigger := p, writers := s.writers.set n w } := by
  refine ⟨tended, ?_, fun stage => kind.trans (h.fresh stage)⟩
  intro k o found
  simp only at found
  by_cases own : n = k
  · subst own
    rw [List.getElem?_set, if_pos rfl] at found
    split at found
    · exact waits o (Option.some.inj found)
    · cases found
  · rw [List.getElem?_set_ne own] at found
    exact (h.blocked k o found).imp_right (linked o)

private theorem awaited_redirect (h : Awaited s) (timely : Timely s (.redirect n))
    (happens : writerStep s (.redirect n) = some t) : Awaited t := by
  have tended := tended_redirect h.tended happens
  simp only [writerStep] at happens
  split at happens
  · obtain ⟨o, path, linked, _, _, _, result⟩ := openWrite_spec h.tended.valid
    have kind := openWrite_fifoLinked (p := s.trigger)
    generalize openWrite s.trigger = opening at happens path kind result linked
    obtain ⟨p, r⟩ := opening
    simp only at path kind result linked
    rcases result with rfl | ⟨rfl, named, away, m, node⟩
    · obtain rfl := Option.some.inj happens
      refine h.moves tended linked kind ?_
      intro o' same
      cases same
    · obtain rfl := Option.some.inj happens
      refine h.moves tended linked kind ?_
      intro o' same
      obtain rfl := Writer.blocked.inj same
      have fifo := fifoLinked_of_node named node
      -- The guard excludes the first stage, and no FIFO is there in the second.
      rcases h.tended.unread named away with stage | stage | stage
      · exact absurd ⟨stage, fifo⟩ timely
      · rw [h.fresh stage] at fifo
        cases fifo
      · exact ⟨stage, path⟩
  · cases happens

private theorem awaited_write (h : Awaited s) (happens : writerStep s (.write n) = some t) :
    Awaited t := by
  have tended := tended_write h.tended happens
  simp only [writerStep] at happens
  split at happens
  · rename_i o found
    obtain rfl := Option.some.inj happens
    obtain ⟨linked, -⟩ := write_spec h.tended.valid o
    refine h.moves tended (fun r named => linked.trans named) write_fifoLinked ?_
    intro r same
    cases same
  · cases happens

private theorem awaited_rename (h : Awaited s) :
    Awaited { s with drop := s.drop ++ [s.writers.length], writers := s.writers ++ [.renamed] } := by
  refine ⟨tended_rename h.tended, ?_, h.fresh⟩
  intro k o found
  have old : s.writers[k]? = some (.blocked o) := by
    simp only [List.getElem?_append] at found
    split at found
    · exact found
    · have new := List.mem_of_getElem? found
      cases List.mem_singleton.mp new
  exact h.blocked k o old

private theorem Awaited.goes (h : Awaited s) (tended : Tended t) (writers : t.writers = s.writers)
    (stage : s.stage ≠ .made) (fresh : t.stage = .unlinked → fifoLinked t.trigger = false) :
    Awaited t := by
  refine ⟨tended, ?_, fresh⟩
  intro n o found
  rw [writers] at found
  exact absurd (h.blocked n o found).1 stage

private theorem awaited_reopen (h : Awaited s) (stage : s.stage = .made)
    (happens : handlerStep s .reopen .made = some t) : Awaited t := by
  have tended := tended_reopen h.tended stage happens
  have ends := h.tended.ends
  rw [stage] at ends
  obtain ⟨⟨o, path⟩, _⟩ := ends
  simp only [handlerStep, openRead_linked path] at happens
  obtain rfl := Option.some.inj happens
  refine ⟨tended, ?_, ?_⟩
  · intro n r found
    simp only [List.getElem?_map, Option.map_eq_some_iff] at found
    obtain ⟨w, before, released⟩ := found
    rcases release_cases o w with same | ⟨_, opened⟩
    · obtain rfl := same.symm.trans released
      obtain rfl := Option.some.inj (path.symm.trans (h.blocked n r before).2)
      rw [Writer.release, if_pos rfl] at same
      cases same
    · cases opened.symm.trans released
  · intro other
    cases other

private theorem awaited_handler {e : TriggerEvent} (h : Awaited s)
    (happens : handlerStep s e s.stage = some t) : Awaited t := by
  have tended := tended_handler h.tended happens
  rcases handlerStep_cases happens with ⟨stage, _, rfl⟩ | ⟨stage, call⟩ | ⟨stage, call⟩ |
    ⟨stage, call⟩ | ⟨stage, rfl⟩ | ⟨stage, rfl⟩ | ⟨n, rfl⟩ | ⟨_, stage, gone, rfl⟩
  · exact h.goes tended rfl (by simp [stage]) nofun
  · have ends := h.tended.ends
    rw [stage] at ends
    obtain ⟨⟨o, path⟩, _⟩ := ends
    simp only [handlerStep, unlink_linked path] at call
    obtain rfl := Option.some.inj call
    exact h.goes tended rfl (by simp [stage]) fun _ => rfl
  · simp only [handlerStep] at call
    split at call
    · obtain rfl := Option.some.inj call
      exact h.goes tended rfl (by simp [stage]) nofun
    · obtain rfl := Option.some.inj call
      exact h.goes tended rfl (by simp [stage]) nofun
    · obtain rfl := Option.some.inj call
      exact h.goes tended rfl (by simp [stage]) nofun
  · exact awaited_reopen h stage call
  · exact h.goes tended rfl (by simp [stage]) nofun
  · exact h.goes tended rfl (by simp [stage]) nofun
  · exact ⟨tended, h.blocked, h.fresh⟩
  · exact h.goes tended rfl (by rcases stage with scan | scan <;> simp [scan]) nofun

end Waiting

private theorem awaited_step (s : TriggerState) (e : TriggerEvent) (t : TriggerState)
    (h : Awaited s) (timely : Timely s e) (happens : triggerStep s e = some t) : Awaited t := by
  unfold triggerStep at happens
  split at happens
  · obtain rfl := Option.some.inj happens
    exact awaited_rename h
  · exact awaited_redirect h timely happens
  · exact awaited_write h happens
  · exact awaited_handler h happens

private theorem awaited_start : Awaited triggerStart := by
  refine ⟨tended_start, ?_, nofun⟩
  intro n o found
  cases found

/-- Nobody hangs as long as no writer opens the FIFO that quemngr has closed and is about
to unlink. -/
theorem timely_never_hung {s : TriggerState} {es : List TriggerEvent}
    (timely : Guarded triggerStep Timely triggerStart es)
    (reached : run triggerStep triggerStart es = some s) (n : Nat) : ¬ Hung s n := by
  have awaited := guarded_invariant awaited_step awaited_start timely reached
  rintro ⟨o, waits, away, _⟩
  exact away (awaited.blocked n o waits).2

/-- A writer waits between mkfifo and open, and goes on. -/
theorem timely_never_hung_waiting : ∃ s, run triggerStep triggerStart
      [.rename, .redirect 0, .write 0, .pollin, .unlink, .mkfifo, .rename, .redirect 1] = some s ∧
    s.writers[1]? = some (.blocked 1) ∧ ¬ Hung s 1 := by
  refine ⟨_, rfl, rfl, ?_⟩
  exact @timely_never_hung _
    [.rename, .redirect 0, .write 0, .pollin, .unlink, .mkfifo, .rename, .redirect 1]
    (by decide) rfl 1

end IecUtils.Queue.Trigger
