/- Module: IecUtils/Scripts/Putqueue
   source: putqueue of scripts/utils/db_utils, scan_drop of quemngr/quemngr.c
   digest: Calls of putqueue that drop files for one quemngr, step by step: what quemngr takes is whole, on the disk, and taken once. -/

import IecUtils.Foundation.Transition
import IecUtils.Queue.Files
import Mathlib.Logic.Function.Basic

set_option autoImplicit false
set_option relaxedAutoImplicit false

namespace IecUtils.Scripts.Putqueue

open IecUtils.Foundation.Transition
open IecUtils.Queue.Files (Ino)

section Program

/-- A name in `drop`: one that `mktemp` made of its template, or a decimal number. -/
inductive Name where
  | dropmsg (suffix : List Char)
  | number (n : Nat)
  deriving DecidableEq

/-- `strtoul(dirp->d_name, NULL, 10)`: the template does not begin with a digit. -/
def Name.strtoul : Name → Ino
  | .dropmsg _ => 0
  | .number n => Queue.Files.strtoul n

/-- The bytes of a file, whether they are on the disk, and the call that made it. -/
structure File where
  data : List UInt8
  synced : Bool
  owner : Nat
  deriving DecidableEq

/-- How far a call has come: `$dropmsg` is chosen; `cp` writes; `cp` returned; the file is
synchronized; it has its name; the trigger is written; or one of the commands failed. -/
inductive Stage where
  | named (tmp : List Char)
  | copying (tmp : List Char) (ino : Ino)
  | copied (tmp : List Char) (ino : Ino)
  | synced (tmp : List Char) (ino : Ino)
  | moved (ino : Ino)
  | finished (ino : Ino)
  | failed
  deriving DecidableEq

/-- A turn of the loop, with the bytes of `$file`. -/
structure Call where
  source : List UInt8
  stage : Stage
  deriving DecidableEq

/-- A file as quemngr found it when it moved it to `in`. -/
structure Taken where
  owner : Nat
  data : List UInt8
  synced : Bool
  deriving DecidableEq

/-- The directory and the files of one quemngr; `spool` are those it has taken and not deleted. -/
structure Drop where
  entries : List (Name × Ino)
  files : Ino → File
  spool : List Ino
  calls : List Call
  taken : List Taken

/-- What the calls, quemngr and its deletions do, each at any moment. -/
inductive PutEvent where
  | begin (source : List UInt8) (tmp : List Char)
  | create (c : Nat) (i : Ino)
  | write (c n : Nat)
  | copy (c : Nat)
  | sync (c : Nat)
  | move (c : Nat)
  | finish (c : Nat)
  | fail (c : Nat)
  | take (name : Name) (i : Ino)
  | release (i : Ino)

def Drop.advance (d : Drop) (c : Nat) (source : List UInt8) (stage : Stage) : Drop :=
  { d with calls := d.calls.set c ⟨source, stage⟩ }

def Drop.change (d : Drop) (i : Ino) (data : List UInt8) (synced : Bool) : Drop :=
  { d with files := Function.update d.files i { d.files i with data := data, synced := synced } }

/-- `rm`, and what `mv` replaces. -/
def Drop.remove (d : Drop) (name : Name) : Drop :=
  { d with entries := d.entries.filter fun e => e.1 ≠ name }

/-- The `rm` of the branch a failing command leads to: behind `mv` it names the inode. -/
def cleanup (d : Drop) : Stage → Drop
  | .named tmp => d.remove (.dropmsg tmp)
  | .copying tmp _ => d.remove (.dropmsg tmp)
  | .copied tmp _ => d.remove (.dropmsg tmp)
  | .synced _ ino => d.remove (.number ino.toNat)
  | .moved ino => d.remove (.number ino.toNat)
  | .finished _ => d
  | .failed => d

def Stage.running : Stage → Bool
  | .finished _ => false
  | .failed => false
  | _ => true

/-- The name of a file that is not there and that no running call has been given. `mktemp -u` looks
at the directory only; that its random names differ as well is assumed. -/
def Drop.Unused (d : Drop) (tmp : List Char) : Prop :=
  (∀ e ∈ d.entries, e.1 ≠ .dropmsg tmp) ∧ ∀ call ∈ d.calls, call.stage ≠ .named tmp

def Drop.Free (d : Drop) (i : Ino) : Prop := i ≠ 0 ∧ (∀ e ∈ d.entries, e.2 ≠ i) ∧ i ∉ d.spool

instance (d : Drop) (tmp : List Char) : Decidable (d.Unused tmp) :=
  inferInstanceAs (Decidable (_ ∧ _))

instance (d : Drop) (i : Ino) : Decidable (d.Free i) := inferInstanceAs (Decidable (_ ∧ _))

def putStep (d : Drop) : PutEvent → Option Drop
  | .begin source tmp =>
      if d.Unused tmp then some { d with calls := d.calls ++ [⟨source, .named tmp⟩] } else none
  | .create c i =>
      match d.calls[c]? with
      | some ⟨source, .named tmp⟩ =>
          if d.Free i then
            some { d.advance c source (.copying tmp i) with
              entries := d.entries ++ [(.dropmsg tmp, i)]
              files := Function.update d.files i ⟨[], false, c⟩ }
          else none
      | _ => none
  | .write c n =>
      match d.calls[c]? with
      | some ⟨source, .copying _ i⟩ => some (d.change i (source.take n) false)
      | _ => none
  | .copy c =>
      match d.calls[c]? with
      | some ⟨source, .copying tmp i⟩ =>
          some ((d.change i source false).advance c source (.copied tmp i))
      | _ => none
  | .sync c =>
      match d.calls[c]? with
      | some ⟨source, .copied tmp i⟩ =>
          some ((d.change i (d.files i).data true).advance c source (.synced tmp i))
      | _ => none
  | .move c =>
      match d.calls[c]? with
      | some ⟨source, .synced tmp i⟩ =>
          let d := ((d.remove (.dropmsg tmp)).remove (.number i.toNat)).advance c source (.moved i)
          some { d with entries := d.entries ++ [(.number i.toNat, i)] }
      | _ => none
  | .finish c =>
      match d.calls[c]? with
      | some ⟨source, .moved i⟩ => some (d.advance c source (.finished i))
      | _ => none
  | .fail c =>
      match d.calls[c]? with
      | some ⟨source, stage⟩ =>
          if stage.running then some ((cleanup d stage).advance c source .failed) else none
      | none => none
  | .take name i =>
      -- quemngr moves what is named by its inode number
      if (name, i) ∈ d.entries ∧ name.strtoul = i then
        some { d.remove name with
          spool := i :: d.spool
          taken := d.taken ++ [⟨(d.files i).owner, (d.files i).data, (d.files i).synced⟩] }
      else none
  | .release i => some { d with spool := d.spool.filter (· ≠ i) }

def Drop.fresh : Drop := ⟨[], fun _ => ⟨[], false, 0⟩, [], [], []⟩

end Program

section Steps

variable {d d' : Drop} {e : PutEvent}

/-- What the steps do, and when they can. -/
inductive Puts (d : Drop) : PutEvent → Drop → Prop
  | begun {source : List UInt8} {tmp : List Char} (unused : d.Unused tmp) :
      Puts d (.begin source tmp) { d with calls := d.calls ++ [⟨source, .named tmp⟩] }
  | created {c : Nat} {i : Ino} {source : List UInt8} {tmp : List Char}
      (call : d.calls[c]? = some ⟨source, .named tmp⟩) (free : d.Free i) :
      Puts d (.create c i) { d.advance c source (.copying tmp i) with
        entries := d.entries ++ [(.dropmsg tmp, i)]
        files := Function.update d.files i ⟨[], false, c⟩ }
  | wrote {c n : Nat} {i : Ino} {source : List UInt8} {tmp : List Char}
      (call : d.calls[c]? = some ⟨source, .copying tmp i⟩) :
      Puts d (.write c n) (d.change i (source.take n) false)
  | copied {c : Nat} {i : Ino} {source : List UInt8} {tmp : List Char}
      (call : d.calls[c]? = some ⟨source, .copying tmp i⟩) :
      Puts d (.copy c) ((d.change i source false).advance c source (.copied tmp i))
  | synced {c : Nat} {i : Ino} {source : List UInt8} {tmp : List Char}
      (call : d.calls[c]? = some ⟨source, .copied tmp i⟩) :
      Puts d (.sync c)
        ((d.change i (d.files i).data true).advance c source (.synced tmp i))
  | moved {c : Nat} {i : Ino} {source : List UInt8} {tmp : List Char}
      (call : d.calls[c]? = some ⟨source, .synced tmp i⟩) :
      Puts d (.move c)
        { ((d.remove (.dropmsg tmp)).remove (.number i.toNat)).advance c source (.moved i) with
          entries := ((d.remove (.dropmsg tmp)).remove (.number i.toNat)).entries ++
            [(.number i.toNat, i)] }
  | finished {c : Nat} {i : Ino} {source : List UInt8}
      (call : d.calls[c]? = some ⟨source, .moved i⟩) :
      Puts d (.finish c) (d.advance c source (.finished i))
  | failed {c : Nat} {source : List UInt8} {stage : Stage}
      (call : d.calls[c]? = some ⟨source, stage⟩) (runs : stage.running = true) :
      Puts d (.fail c) ((cleanup d stage).advance c source .failed)
  | took {name : Name} {i : Ino} (here : (name, i) ∈ d.entries) (named : name.strtoul = i) :
      Puts d (.take name i) { d.remove name with
        spool := i :: d.spool
        taken := d.taken ++ [⟨(d.files i).owner, (d.files i).data, (d.files i).synced⟩] }
  | released (i : Ino) : Puts d (.release i) { d with spool := d.spool.filter (· ≠ i) }

theorem putStep_puts (happens : putStep d e = some d') : Puts d e d' := by
  cases e with
  | begin source tmp =>
    simp only [putStep] at happens
    split at happens
    · rename_i unused
      obtain rfl := Option.some.inj happens
      exact .begun unused
    · cases happens
  | create c i =>
    simp only [putStep] at happens
    split at happens
    · rename_i source tmp call
      split at happens
      · rename_i free
        obtain rfl := Option.some.inj happens
        exact .created call free
      · cases happens
    · cases happens
  | write c n =>
    simp only [putStep] at happens
    split at happens
    · rename_i call
      obtain rfl := Option.some.inj happens
      exact .wrote call
    · cases happens
  | copy c =>
    simp only [putStep] at happens
    split at happens
    · rename_i call
      obtain rfl := Option.some.inj happens
      exact .copied call
    · cases happens
  | sync c =>
    simp only [putStep] at happens
    split at happens
    · rename_i call
      obtain rfl := Option.some.inj happens
      exact .synced call
    · cases happens
  | move c =>
    simp only [putStep] at happens
    split at happens
    · rename_i call
      obtain rfl := Option.some.inj happens
      exact .moved call
    · cases happens
  | finish c =>
    simp only [putStep] at happens
    split at happens
    · rename_i call
      obtain rfl := Option.some.inj happens
      exact .finished call
    · cases happens
  | fail c =>
    simp only [putStep] at happens
    split at happens
    · rename_i call
      split at happens
      · rename_i runs
        obtain rfl := Option.some.inj happens
        exact .failed call runs
      · cases happens
    · cases happens
  | take name i =>
    simp only [putStep] at happens
    split at happens
    · rename_i both
      obtain rfl := Option.some.inj happens
      exact .took both.1 both.2
    · cases happens
  | release i =>
    obtain rfl := Option.some.inj happens
    exact .released i

end Steps

section Directory

/-- A directory without a name or a file twice: no file has been taken yet, and no two of them
are of one call, nor one that is there and one that was taken. -/
structure Tidy (entries : List (Name × Ino)) (owner : Ino → Nat) (spool : List Ino)
    (taken : List Nat) : Prop where
  names : ∀ {n i j}, (n, i) ∈ entries → (n, j) ∈ entries → i = j
  inodes : ∀ {m n i}, (m, i) ∈ entries → (n, i) ∈ entries → m = n
  nonzero : ∀ {n i}, (n, i) ∈ entries → i ≠ 0
  apart : ∀ {n i}, (n, i) ∈ entries → i ∉ spool
  owners : ∀ {m n i j}, (m, i) ∈ entries → (n, j) ∈ entries → owner i = owner j → i = j
  once : taken.Nodup
  present : ∀ {n i}, (n, i) ∈ entries → owner i ∉ taken

variable {entries fewer : List (Name × Ino)} {owner owner' : Ino → Nat} {spool spool' : List Ino}
  {taken : List Nat}

theorem Tidy.mono (h : Tidy entries owner spool taken) (part : ∀ e ∈ fewer, e ∈ entries) :
    Tidy fewer owner spool taken where
  names here there := h.names (part _ here) (part _ there)
  inodes here there := h.inodes (part _ here) (part _ there)
  nonzero here := h.nonzero (part _ here)
  apart here := h.apart (part _ here)
  owners here there := h.owners (part _ here) (part _ there)
  once := h.once
  present here := h.present (part _ here)

theorem Tidy.released (h : Tidy entries owner spool taken) (part : ∀ i ∈ spool', i ∈ spool) :
    Tidy entries owner spool' taken :=
  { h with apart := fun here inside => h.apart here (part _ inside) }

theorem Tidy.congr (h : Tidy entries owner spool taken)
    (same : ∀ n i, (n, i) ∈ entries → owner' i = owner i) : Tidy entries owner' spool taken where
  names := h.names
  inodes := h.inodes
  nonzero := h.nonzero
  apart := h.apart
  owners {m n i j} here there equal := by
    rw [same m i here, same n j there] at equal
    exact h.owners here there equal
  once := h.once
  present {n i} here := by
    rw [same n i here]
    exact h.present here

theorem Tidy.added (h : Tidy entries owner spool taken) {name : Name} {i : Ino}
    (unnamed : ∀ j, (name, j) ∉ entries) (zero : i ≠ 0) (free : ∀ n, (n, i) ∉ entries)
    (outside : i ∉ spool) (single : ∀ n j, (n, j) ∈ entries → owner j ≠ owner i)
    (untaken : owner i ∉ taken) : Tidy (entries ++ [(name, i)]) owner spool taken := by
  have cases {n : Name} {j : Ino} (member : (n, j) ∈ entries ++ [(name, i)]) :
      (n, j) ∈ entries ∨ n = name ∧ j = i := by
    rcases List.mem_append.mp member with old | new
    · exact .inl old
    · exact .inr (Prod.mk.inj (List.mem_singleton.mp new))
  refine ⟨?_, ?_, ?_, ?_, ?_, h.once, ?_⟩
  · intro n j k here there
    rcases cases here with old | ⟨rfl, rfl⟩ <;> rcases cases there with old' | ⟨same, rfl⟩
    · exact h.names old old'
    · rw [same] at old
      exact absurd old (unnamed _)
    · exact absurd old' (unnamed _)
    · rfl
  · intro m n j here there
    rcases cases here with old | ⟨rfl, rfl⟩ <;> rcases cases there with old' | ⟨rfl, same⟩
    · exact h.inodes old old'
    · rw [same] at old
      exact absurd old (free _)
    · exact absurd old' (free _)
    · rfl
  · intro n j here
    rcases cases here with old | ⟨_, rfl⟩
    · exact h.nonzero old
    · exact zero
  · intro n j here
    rcases cases here with old | ⟨_, rfl⟩
    · exact h.apart old
    · exact outside
  · intro m n j k here there same
    rcases cases here with old | ⟨_, rfl⟩ <;> rcases cases there with old' | ⟨_, rfl⟩
    · exact h.owners old old' same
    · exact absurd same (single _ _ old)
    · exact absurd same.symm (single _ _ old')
    · rfl
  · intro n j here
    rcases cases here with old | ⟨_, rfl⟩
    · exact h.present old
    · exact untaken

theorem Tidy.took (h : Tidy entries owner spool taken) {name : Name} {i : Ino}
    (here : (name, i) ∈ entries) :
    Tidy (entries.filter fun e => e.1 ≠ name) owner (i :: spool) (taken ++ [owner i]) := by
  have cases {n : Name} {j : Ino} (member : (n, j) ∈ entries.filter fun e => e.1 ≠ name) :
      (n, j) ∈ entries ∧ j ≠ i := by
    obtain ⟨old, other⟩ := List.mem_filter.mp member
    refine ⟨old, ?_⟩
    rintro rfl
    exact of_decide_eq_true other (h.inodes old here)
  have rest : Tidy (entries.filter fun e => e.1 ≠ name) owner spool taken :=
    h.mono fun e member => (List.mem_filter.mp member).1
  refine { rest with apart := ?_, once := ?_, present := ?_ }
  · intro n j member inside
    obtain ⟨old, other⟩ := cases member
    rcases List.mem_cons.mp inside with same | before
    · exact other same
    · exact h.apart old before
  · refine List.nodup_append.mpr ⟨h.once, List.nodup_singleton _, ?_⟩
    rintro a before b new rfl
    rw [List.mem_singleton.mp new] at before
    exact h.present here before
  · intro n j member inside
    obtain ⟨old, other⟩ := cases member
    rcases List.mem_append.mp inside with before | new
    · exact h.present old before
    · exact other (h.owners old here (List.mem_singleton.mp new))

end Directory

section Calls

def Stage.work : Stage → Option (List Char × Ino)
  | .copying tmp i => some (tmp, i)
  | .copied tmp i => some (tmp, i)
  | .synced tmp i => some (tmp, i)
  | _ => none

def Stage.past : Stage → Bool
  | .moved _ => true
  | .finished _ => true
  | .failed => true
  | _ => false

def Ready (f : File) (source : List UInt8) : Stage → Prop
  | .copied _ _ => f.data = source
  | .synced _ _ => f.data = source ∧ f.synced = true
  | _ => True

/-- The bytes are those of the source of a call that is done with them, and on the disk. -/
def Done (calls : List Call) (owner : Nat) (data : List UInt8) (synced : Bool) : Prop :=
  ∃ call, calls[owner]? = some call ∧ call.stage.past = true ∧ data = call.source ∧ synced = true

variable {calls : List Call} {c k : Nat} {x y call : Call}

theorem lookup_set (here : calls[c]? = some x) (y : Call) (k : Nat) :
    (calls.set c y)[k]? = if k = c then some y else calls[k]? := by
  have inside : c < calls.length := (List.getElem?_eq_some_iff.mp here).1
  rw [List.getElem?_set]
  by_cases same : k = c
  · rw [if_pos same.symm, if_pos inside, if_pos same]
  · rw [if_neg (Ne.symm same), if_neg same]

theorem lookup_append : (calls ++ [x])[k]? = some y ↔
    calls[k]? = some y ∨ k = calls.length ∧ y = x := by
  rw [List.getElem?_append]
  by_cases inside : k < calls.length
  · rw [if_pos inside]
    have other : k ≠ calls.length := by omega
    simp [other]
  · rw [if_neg inside, List.getElem?_eq_none (by omega : calls.length ≤ k)]
    by_cases last : k = calls.length
    · simp [last, eq_comm]
    · rw [List.getElem?_eq_none (by rw [List.length_singleton]; omega)]
      simp [last]

variable {owner : Nat} {data : List UInt8} {synced : Bool}

theorem Done.set (h : Done calls owner data synced) (here : calls[c]? = some x)
    (past : x.stage.past = true → y.stage.past = true ∧ y.source = x.source) :
    Done (calls.set c y) owner data synced := by
  obtain ⟨call, found, done, bytes, disk⟩ := h
  by_cases same : owner = c
  · rw [same, here] at found
    obtain rfl := Option.some.inj found
    obtain ⟨still, source⟩ := past done
    exact ⟨y, by rw [lookup_set here, if_pos same], still, bytes.trans source.symm, disk⟩
  · exact ⟨call, by rw [lookup_set here, if_neg same, found], done, bytes, disk⟩

theorem Done.append (h : Done calls owner data synced) (x : Call) :
    Done (calls ++ [x]) owner data synced := by
  obtain ⟨call, found, rest⟩ := h
  exact ⟨call, lookup_append.mpr (.inl found), rest⟩

end Calls

/-- What every state satisfies: the directory is tidy; a call with a name only has no file and
the name to itself; the file of a call at work is there; what is named by its number is done, and
so is what was taken. -/
structure Sound (d : Drop) : Prop where
  tidy : Tidy d.entries (fun i => (d.files i).owner) d.spool (d.taken.map Taken.owner)
  named : ∀ {c source tmp}, d.calls[c]? = some ⟨source, .named tmp⟩ →
    (∀ i, (Name.dropmsg tmp, i) ∉ d.entries) ∧
      (∀ n i, (n, i) ∈ d.entries → (d.files i).owner ≠ c) ∧
      c ∉ d.taken.map Taken.owner ∧
      ∀ c' source', d.calls[c']? = some ⟨source', .named tmp⟩ → c' = c
  working : ∀ {c source stage tmp i}, d.calls[c]? = some ⟨source, stage⟩ →
    stage.work = some (tmp, i) →
    (.dropmsg tmp, i) ∈ d.entries ∧ (d.files i).owner = c ∧ Ready (d.files i) source stage
  begun : ∀ {n i}, (n, i) ∈ d.entries → (d.files i).owner < d.calls.length
  numbered : ∀ {n i}, (.number n, i) ∈ d.entries → n = i.toNat ∧
    Done d.calls (d.files i).owner (d.files i).data (d.files i).synced
  whole : ∀ t ∈ d.taken, Done d.calls t.owner t.data t.synced

section Preservation

variable {d : Drop} {c : Nat} {i : Ino} {source : List UInt8} {tmp : List Char} {stage : Stage}

theorem done_lt {calls : List Call} {owner : Nat} {data : List UInt8} {synced : Bool}
    (done : Done calls owner data synced) : owner < calls.length := by
  obtain ⟨call, found, _⟩ := done
  exact (List.getElem?_eq_some_iff.mp found).1

private theorem sound_begun (h : Sound d) (unused : d.Unused tmp) :
    Sound { d with calls := d.calls ++ [⟨source, .named tmp⟩] } := by
  have other {c : Nat} {source' : List UInt8} (there : d.calls[c]? = some ⟨source', .named tmp⟩) :
      False :=
    unused.2 _ (List.mem_of_getElem? there) rfl
  refine ⟨h.tidy, ?_, ?_, ?_, ?_, ?_⟩
  · intro c source' tmp' call
    rcases lookup_append.mp call with old | ⟨rfl, same⟩
    · obtain ⟨unnamed, none, untaken, alone⟩ := h.named old
      refine ⟨unnamed, none, untaken, ?_⟩
      intro c' source'' call'
      rcases lookup_append.mp call' with old' | ⟨_, same⟩
      · exact alone c' source'' old'
      · injection same with _ stages
        injection stages with names
        rw [names] at old
        exact (other old).elim
    · injection same with _ stages
      injection stages with names
      subst names
      refine ⟨?_, ?_, ?_, ?_⟩
      · intro i member
        exact unused.1 _ member rfl
      · intro n i member
        exact Nat.ne_of_lt (h.begun member)
      · intro member
        obtain ⟨t, taken, owner⟩ := List.mem_map.mp member
        have small := done_lt (h.whole t taken)
        omega
      · intro c' source'' call'
        rcases lookup_append.mp call' with old' | ⟨here, _⟩
        · exact (other old').elim
        · exact here
  · intro c source' stage tmp' i call work
    rcases lookup_append.mp call with old | ⟨_, same⟩
    · exact h.working old work
    · injection same with _ stages
      rw [stages] at work
      cases work
  · intro n i member
    dsimp only
    rw [List.length_append]
    exact Nat.lt_add_right _ (h.begun member)
  · intro n i member
    obtain ⟨number, done⟩ := h.numbered member
    exact ⟨number, done.append _⟩
  · intro t member
    exact (h.whole t member).append _

private theorem works_apart (h : Sound d) (call : d.calls[c]? = some ⟨source, stage⟩)
    (work : stage.work = some (tmp, i)) {c' : Nat} {source' : List UInt8} {stage' : Stage}
    {tmp' : List Char} {i' : Ino} (call' : d.calls[c']? = some ⟨source', stage'⟩)
    (work' : stage'.work = some (tmp', i')) (other : c' ≠ c) : tmp' ≠ tmp ∧ i' ≠ i := by
  obtain ⟨here, owner, _⟩ := h.working call work
  obtain ⟨there, owner', _⟩ := h.working call' work'
  have files : i' ≠ i := by
    rintro rfl
    exact other (owner'.symm.trans owner)
  refine ⟨?_, files⟩
  rintro rfl
  exact files (h.tidy.names there here)

private theorem sound_created (h : Sound d) (call : d.calls[c]? = some ⟨source, .named tmp⟩)
    (free : d.Free i) :
    Sound { d.advance c source (.copying tmp i) with
      entries := d.entries ++ [(.dropmsg tmp, i)]
      files := Function.update d.files i ⟨[], false, c⟩ } := by
  obtain ⟨zero, fresh, outside⟩ := free
  obtain ⟨unnamed, none, untaken, alone⟩ := h.named call
  have old {n : Name} {j : Ino} (member : (n, j) ∈ d.entries) :
      Function.update d.files i ⟨[], false, c⟩ j = d.files j :=
    Function.update_of_ne (fresh _ member) _ _
  have new : Function.update d.files i ⟨[], false, c⟩ i = ⟨[], false, c⟩ := Function.update_self ..
  have cases {n : Name} {j : Ino} (member : (n, j) ∈ d.entries ++ [(.dropmsg tmp, i)]) :
      (n, j) ∈ d.entries ∨ n = .dropmsg tmp ∧ j = i := by
    rcases List.mem_append.mp member with before | added
    · exact .inl before
    · exact .inr (Prod.mk.inj (List.mem_singleton.mp added))
  refine ⟨?_, ?_, ?_, ?_, ?_, ?_⟩
  · refine Tidy.added (h.tidy.congr fun n j member => congrArg File.owner (old member)) unnamed zero
      (fun n member => fresh _ member rfl) outside ?_ ?_
    · intro n j member
      rw [old member, new]
      exact none n j member
    · rw [new]
      exact untaken
  · intro k source' tmp' call'
    dsimp only [Drop.advance] at call' ⊢
    rw [lookup_set call] at call'
    split at call'
    · cases call'
    rename_i apart
    obtain ⟨unnamed', none', untaken', alone'⟩ := h.named call'
    refine ⟨?_, ?_, untaken', ?_⟩
    · intro j member
      rcases cases member with before | ⟨same, _⟩
      · exact unnamed' j before
      · injection same with same
        subst same
        exact apart (alone _ _ call')
    · intro n j member
      rcases cases member with before | ⟨_, rfl⟩
      · rw [old before]
        exact none' n j before
      · rw [new]
        exact Ne.symm apart
    · intro k' source'' call''
      rw [lookup_set call] at call''
      split at call''
      · cases call''
      · exact alone' k' source'' call''
  · intro k source' stage' tmp' j call' work
    dsimp only [Drop.advance] at call' ⊢
    rw [lookup_set call] at call'
    split at call'
    · rename_i same
      cases call'
      cases work
      rw [new]
      exact ⟨List.mem_append_right _ (List.mem_singleton_self _), same.symm, trivial⟩
    · obtain ⟨there, owner, ready⟩ := h.working call' work
      rw [old there]
      exact ⟨List.mem_append_left _ there, owner, ready⟩
  · intro n j member
    dsimp only [Drop.advance] at member ⊢
    rw [List.length_set]
    rcases cases member with before | ⟨_, rfl⟩
    · rw [old before]
      exact h.begun before
    · rw [new]
      exact (List.getElem?_eq_some_iff.mp call).1
  · intro n j member
    dsimp only [Drop.advance] at member ⊢
    rcases cases member with before | ⟨other, _⟩
    · rw [old before]
      obtain ⟨number, done⟩ := h.numbered before
      exact ⟨number, done.set call fun past => by cases past⟩
    · cases other
  · intro t member
    exact (h.whole t member).set call fun past => by cases past

private theorem sound_changed (h : Sound d) (call : d.calls[c]? = some ⟨source, stage⟩)
    (work : stage.work = some (tmp, i)) {stage' : Stage} (work' : stage'.work = some (tmp, i))
    {data : List UInt8} {synced : Bool}
    (ready : Ready ⟨data, synced, c⟩ source stage') :
    Sound ((d.change i data synced).advance c source stage') := by
  obtain ⟨here, owner, _⟩ := h.working call work
  have owners : (fun j => ((d.change i data synced).files j).owner) =
      fun j => (d.files j).owner := by
    funext j
    dsimp only [Drop.change]
    by_cases same : j = i
    · rw [same, Function.update_self]
    · rw [Function.update_of_ne same]
  have owners' (j : Ino) : ((d.change i data synced).files j).owner = (d.files j).owner :=
    congrFun owners j
  have old {j : Ino} (other : j ≠ i) : (d.change i data synced).files j = d.files j :=
    Function.update_of_ne other _ _
  have new : (d.change i data synced).files i = ⟨data, synced, c⟩ := by
    rw [← owner]
    exact Function.update_self ..
  have fresh : stage.past = false := by
    cases stage <;> first | rfl | cases work
  refine ⟨?_, ?_, ?_, ?_, ?_, ?_⟩
  · have tidy := h.tidy
    rw [← owners] at tidy
    exact tidy
  · intro k source' tmp' call'
    change (d.calls.set c ⟨source, stage'⟩)[k]? = _ at call'
    rw [lookup_set call] at call'
    split at call'
    · cases call'
      cases work'
    obtain ⟨unnamed, none, untaken, alone⟩ := h.named call'
    refine ⟨unnamed, ?_, untaken, ?_⟩
    · intro n j member
      exact fun same => none n j member ((owners' j).symm.trans same)
    · intro k' source'' call''
      change (d.calls.set c ⟨source, stage'⟩)[k']? = _ at call''
      rw [lookup_set call] at call''
      split at call''
      · cases call''
        cases work'
      · exact alone k' source'' call''
  · intro k source' stage'' tmp' j call' work''
    change (d.calls.set c ⟨source, stage'⟩)[k]? = _ at call'
    rw [lookup_set call] at call'
    split at call'
    · rename_i same
      cases call'
      rw [work'] at work''
      cases work''
      refine ⟨here, ?_, ?_⟩
      · exact (owners' i).trans (owner.trans same.symm)
      · change Ready ((d.change i data synced).files i) source stage'
        rw [new]
        exact ready
    · rename_i apart
      obtain ⟨there, owner', ready'⟩ := h.working call' work''
      have other := (works_apart h call work call' work'' apart).2
      refine ⟨there, ?_, ?_⟩
      · exact (owners' j).trans owner'
      · change Ready ((d.change i data synced).files j) source' stage''
        rw [old other]
        exact ready'
  · intro n j member
    change ((d.change i data synced).files j).owner < (d.calls.set c ⟨source, stage'⟩).length
    rw [owners', List.length_set]
    exact h.begun member
  · intro n j member
    obtain ⟨number, done⟩ := h.numbered member
    have other : j ≠ i := by
      rintro rfl
      cases h.tidy.inodes member here
    refine ⟨number, ?_⟩
    change Done (d.calls.set c ⟨source, stage'⟩) ((d.change i data synced).files j).owner
      ((d.change i data synced).files j).data ((d.change i data synced).files j).synced
    rw [old other]
    exact done.set call fun past => by rw [fresh] at past; cases past
  · intro t member
    exact (h.whole t member).set call fun past => by rw [fresh] at past; cases past

theorem mem_remove {name n : Name} {j : Ino} :
    (n, j) ∈ (d.remove name).entries ↔ (n, j) ∈ d.entries ∧ n ≠ name := by
  rw [Drop.remove, List.mem_filter, decide_eq_true_eq]

private theorem sound_moved (h : Sound d) (call : d.calls[c]? = some ⟨source, .synced tmp i⟩) :
    Sound { ((d.remove (.dropmsg tmp)).remove (.number i.toNat)).advance c source (.moved i) with
      entries := ((d.remove (.dropmsg tmp)).remove (.number i.toNat)).entries ++
        [(.number i.toNat, i)] } := by
  obtain ⟨here, owner, bytes, disk⟩ := h.working call rfl
  have kept {n : Name} {j : Ino}
      (member : (n, j) ∈ ((d.remove (.dropmsg tmp)).remove (.number i.toNat)).entries) :
      (n, j) ∈ d.entries ∧ n ≠ .dropmsg tmp ∧ n ≠ .number i.toNat := by
    obtain ⟨first, number⟩ := mem_remove.mp member
    obtain ⟨old, dropmsg⟩ := mem_remove.mp first
    exact ⟨old, dropmsg, number⟩
  have cases {n : Name} {j : Ino}
      (member : (n, j) ∈ ((d.remove (.dropmsg tmp)).remove (.number i.toNat)).entries ++
        [(.number i.toNat, i)]) :
      (n, j) ∈ d.entries ∧ n ≠ .dropmsg tmp ∧ n ≠ .number i.toNat ∨
        n = .number i.toNat ∧ j = i := by
    rcases List.mem_append.mp member with before | added
    · exact .inl (kept before)
    · exact .inr (Prod.mk.inj (List.mem_singleton.mp added))
  have done : Done (d.calls.set c ⟨source, .moved i⟩) (d.files i).owner (d.files i).data
      (d.files i).synced := by
    refine ⟨⟨source, .moved i⟩, ?_, rfl, bytes, disk⟩
    rw [lookup_set call, if_pos owner]
  refine ⟨?_, ?_, ?_, ?_, ?_, ?_⟩
  · refine Tidy.added (h.tidy.mono fun e member => (kept member).1) ?_ (h.tidy.nonzero here) ?_
      (h.tidy.apart here) ?_ (h.tidy.present here)
    · intro j member
      exact (kept member).2.2 rfl
    · intro n member
      exact (kept member).2.1 (h.tidy.inodes (kept member).1 here)
    · intro n j member same
      have files := h.tidy.owners (kept member).1 here same
      rw [files] at member
      exact (kept member).2.1 (h.tidy.inodes (kept member).1 here)
  · intro k source' tmp' call'
    change (d.calls.set c ⟨source, .moved i⟩)[k]? = _ at call'
    rw [lookup_set call] at call'
    split at call'
    · cases call'
    rename_i apart
    obtain ⟨unnamed, none, untaken, alone⟩ := h.named call'
    refine ⟨?_, ?_, untaken, ?_⟩
    · intro j member
      rcases cases member with ⟨old, _⟩ | ⟨other, _⟩
      · exact unnamed j old
      · cases other
    · intro n j member
      rcases cases member with ⟨old, _⟩ | ⟨_, rfl⟩
      · exact none n j old
      · exact fun same => apart (same.symm.trans owner)
    · intro k' source'' call''
      change (d.calls.set c ⟨source, .moved i⟩)[k']? = _ at call''
      rw [lookup_set call] at call''
      split at call''
      · cases call''
      · exact alone k' source'' call''
  · intro k source' stage' tmp' j call' work
    change (d.calls.set c ⟨source, .moved i⟩)[k]? = _ at call'
    rw [lookup_set call] at call'
    split at call'
    · cases call'
      cases work
    rename_i apart
    obtain ⟨there, owner', ready⟩ := h.working call' work
    have other := (works_apart h call rfl call' work apart).1
    refine ⟨List.mem_append_left _ ?_, owner', ready⟩
    refine mem_remove.mpr ⟨mem_remove.mpr ⟨there, ?_⟩, fun same => by cases same⟩
    intro same
    injection same with same
    exact other same
  · intro n j member
    change (d.files j).owner < (d.calls.set c ⟨source, .moved i⟩).length
    rw [List.length_set]
    rcases cases member with ⟨old, _⟩ | ⟨_, rfl⟩
    · exact h.begun old
    · exact h.begun here
  · intro n j member
    rcases cases member with ⟨old, _⟩ | ⟨number, rfl⟩
    · obtain ⟨number, before⟩ := h.numbered old
      exact ⟨number, before.set call fun past => by cases past⟩
    · injection number with number
      exact ⟨number, done⟩
  · intro t member
    exact (h.whole t member).set call fun past => by cases past

private theorem sound_ended (h : Sound d) (call : d.calls[c]? = some ⟨source, stage⟩)
    {stage' : Stage} (past : stage'.past = true) {entries : List (Name × Ino)}
    (part : ∀ e ∈ entries, e ∈ d.entries)
    (kept : ∀ tmp' j, (Name.dropmsg tmp', j) ∈ d.entries →
      (Name.dropmsg tmp', j) ∈ entries ∨ ∃ i, stage.work = some (tmp', i)) :
    Sound { d.advance c source stage' with entries := entries } := by
  have quiet : stage'.work = none := by
    cases stage' <;> first | rfl | cases past
  have lookup {k : Nat} {call' : Call}
      (found : (d.calls.set c ⟨source, stage'⟩)[k]? = some call') (active : call'.stage ≠ stage') :
      k ≠ c ∧ d.calls[k]? = some call' := by
    rw [lookup_set call] at found
    split at found
    · obtain rfl := Option.some.inj found
      exact absurd rfl active
    · exact ⟨by assumption, found⟩
  refine ⟨h.tidy.mono part, ?_, ?_, ?_, ?_, ?_⟩
  · intro k source' tmp' call'
    have begun : Stage.named tmp' ≠ stage' := by
      rintro rfl
      cases past
    obtain ⟨_, found⟩ := lookup call' begun
    obtain ⟨unnamed, none, untaken, alone⟩ := h.named found
    refine ⟨fun j member => unnamed j (part _ member), fun n j member => none n j (part _ member),
      untaken, ?_⟩
    intro k' source'' call''
    exact alone k' source'' (lookup call'' begun).2
  · intro k source' stage'' tmp' j call' work
    have active : stage'' ≠ stage' := by
      rintro rfl
      rw [quiet] at work
      cases work
    obtain ⟨apart, found⟩ := lookup call' active
    obtain ⟨there, owner, ready⟩ := h.working found work
    refine ⟨?_, owner, ready⟩
    refine (kept tmp' j there).resolve_right ?_
    rintro ⟨i, own⟩
    exact (works_apart h call own found work apart).1 rfl
  · intro n j member
    change (d.files j).owner < (d.calls.set c ⟨source, stage'⟩).length
    rw [List.length_set]
    exact h.begun (part _ member)
  · intro n j member
    obtain ⟨number, done⟩ := h.numbered (part _ member)
    exact ⟨number, done.set call fun _ => ⟨past, rfl⟩⟩
  · intro t member
    exact (h.whole t member).set call fun _ => ⟨past, rfl⟩

private theorem sound_failed (h : Sound d) (call : d.calls[c]? = some ⟨source, stage⟩) :
    Sound ((cleanup d stage).advance c source .failed) := by
  have same : (cleanup d stage).advance c source .failed =
      { d.advance c source .failed with entries := (cleanup d stage).entries } := by
    cases stage <;> rfl
  have part : ∀ e ∈ (cleanup d stage).entries, e ∈ d.entries := by
    intro e member
    cases stage with
    | finished => exact member
    | failed => exact member
    | _ => exact (List.mem_filter.mp member).1
  rw [same]
  refine sound_ended h call rfl part ?_
  intro tmp' j member
  cases stage with
  | named tmp =>
    left
    refine mem_remove.mpr ⟨member, ?_⟩
    intro equal
    injection equal with equal
    subst equal
    exact (h.named call).1 j member
  | copying tmp i =>
    by_cases equal : tmp' = tmp
    · exact .inr ⟨i, by rw [equal]; rfl⟩
    · exact .inl (mem_remove.mpr ⟨member, fun names => equal (by injection names)⟩)
  | copied tmp i =>
    by_cases equal : tmp' = tmp
    · exact .inr ⟨i, by rw [equal]; rfl⟩
    · exact .inl (mem_remove.mpr ⟨member, fun names => equal (by injection names)⟩)
  | synced tmp i => exact .inl (mem_remove.mpr ⟨member, fun names => by cases names⟩)
  | moved i => exact .inl (mem_remove.mpr ⟨member, fun names => by cases names⟩)
  | finished i => exact .inl member
  | failed => exact .inl member

theorem took_number (h : Sound d) {name : Name} (here : (name, i) ∈ d.entries)
    (named : name.strtoul = i) : name = .number i.toNat := by
  cases name with
  | dropmsg suffix => exact absurd named.symm (h.tidy.nonzero here)
  | number n => rw [(h.numbered here).1]

private theorem sound_took (h : Sound d) {name : Name} (here : (name, i) ∈ d.entries)
    (named : name.strtoul = i) :
    Sound { d.remove name with
      spool := i :: d.spool
      taken := d.taken ++ [⟨(d.files i).owner, (d.files i).data, (d.files i).synced⟩] } := by
  have number := took_number h here named
  have part {n : Name} {j : Ino} (member : (n, j) ∈ (d.remove name).entries) :
      (n, j) ∈ d.entries := (mem_remove.mp member).1
  refine ⟨?_, ?_, ?_, ?_, ?_, ?_⟩
  · dsimp only
    rw [List.map_append]
    exact h.tidy.took here
  · intro k source tmp call
    obtain ⟨unnamed, none, untaken, alone⟩ := h.named call
    refine ⟨fun j member => unnamed j (part member), fun n j member => none n j (part member), ?_,
      alone⟩
    dsimp only
    rw [List.map_append]
    intro member
    rcases List.mem_append.mp member with before | new
    · exact untaken before
    · exact none name i here (List.mem_singleton.mp new).symm
  · intro k source stage tmp j call work
    obtain ⟨there, owner, ready⟩ := h.working call work
    refine ⟨mem_remove.mpr ⟨there, ?_⟩, owner, ready⟩
    rw [number]
    exact fun same => by cases same
  · intro n j member
    exact h.begun (part member)
  · intro n j member
    exact h.numbered (part member)
  · intro t member
    rcases List.mem_append.mp member with before | new
    · exact h.whole t before
    · rw [List.mem_singleton.mp new]
      rw [number] at here
      exact (h.numbered here).2

variable {d' : Drop} {e : PutEvent}

theorem putStep_sound (h : Sound d) (happens : putStep d e = some d') : Sound d' := by
  cases putStep_puts happens with
  | begun unused => exact sound_begun h unused
  | created call free => exact sound_created h call free
  | @wrote c n i source tmp call =>
    have still : d.change i (source.take n) false =
        (d.change i (source.take n) false).advance c source (.copying tmp i) := by
      obtain ⟨inside, same⟩ := List.getElem?_eq_some_iff.mp call
      have calls : d.calls.set c ⟨source, .copying tmp i⟩ = d.calls := by
        rw [← same, List.set_getElem_self]
      change _ = { d.change i (source.take n) false with
        calls := d.calls.set c ⟨source, .copying tmp i⟩ }
      rw [calls]
      rfl
    rw [still]
    exact sound_changed h call rfl rfl trivial
  | copied call => exact sound_changed h call rfl rfl rfl
  | synced call =>
    obtain ⟨_, _, bytes⟩ := h.working call rfl
    exact sound_changed h call rfl rfl ⟨bytes, rfl⟩
  | moved call => exact sound_moved h call
  | finished call =>
    exact sound_ended h call rfl (fun e member => member) fun tmp' j member => .inl member
  | failed call => exact sound_failed h call
  | took here named => exact sound_took h here named
  | released i =>
    exact { h with tidy := h.tidy.released fun j member => (List.mem_filter.mp member).1 }

theorem fresh_sound : Sound Drop.fresh := by
  have empty {e : Name × Ino} (member : e ∈ Drop.fresh.entries) : False :=
    absurd member List.not_mem_nil
  have calls {c : Nat} {call : Call} (found : Drop.fresh.calls[c]? = some call) : False := by
    cases found
  refine ⟨⟨?_, ?_, ?_, ?_, ?_, List.nodup_nil, ?_⟩, ?_, ?_, ?_, ?_, ?_⟩
  · exact fun here => (empty here).elim
  · exact fun here => (empty here).elim
  · exact fun here => (empty here).elim
  · exact fun here => (empty here).elim
  · exact fun here => (empty here).elim
  · exact fun here => (empty here).elim
  · exact fun call => (calls call).elim
  · exact fun call => (calls call).elim
  · exact fun here => (empty here).elim
  · exact fun here => (empty here).elim
  · exact fun t member => absurd member List.not_mem_nil

/-- However the calls of putqueue, their failures, quemngr and its deletions interleave: what
quemngr takes out of `drop` holds the bytes of the source of one call that was done with them,
they are on the disk, and no call is served twice. -/
theorem taken_whole {es : List PutEvent} (reached : run putStep Drop.fresh es = some d) :
    (d.taken.map Taken.owner).Nodup ∧
      ∀ t ∈ d.taken, ∃ call, d.calls[t.owner]? = some call ∧ call.stage.past = true ∧
        t.data = call.source ∧ t.synced = true := by
  have sound : Sound d :=
    run_invariant (fun _ _ _ inv happens => putStep_sound inv happens) fresh_sound reached
  exact ⟨sound.tidy.once, sound.whole⟩

def twoCalls : List PutEvent :=
  [.begin [1, 2] ['a'], .create 0 7, .begin [3] ['b'], .write 0 1, .create 1 8, .copy 0, .sync 0,
    .move 0, .copy 1, .take (.number 7) 7, .finish 0, .sync 1, .move 1, .release 7, .finish 1]

theorem taken_whole_twoCalls : ∃ d, run putStep Drop.fresh twoCalls = some d ∧
    (d.taken.map Taken.owner).Nodup ∧ d.taken = [⟨0, [1, 2], true⟩] := by
  have reached : run putStep Drop.fresh twoCalls = some _ := rfl
  exact ⟨_, reached, (taken_whole reached).1, rfl⟩

end Preservation

end IecUtils.Scripts.Putqueue
