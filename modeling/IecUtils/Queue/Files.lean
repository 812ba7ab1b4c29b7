/- Module: IecUtils/Queue/Files
   source: the directories of quemngr/quemngr.c, mvfile and cpfile of quemngr/utils.c
   digest: Message files in the spool, named by their inode numbers and at home in one directory each. -/

import IecUtils.Foundation.LinkTable
import Mathlib.Algebra.Group.Int.Defs
import Mathlib.Algebra.Group.Nat.Defs
import Mathlib.Data.List.Basic

set_option autoImplicit false
set_option relaxedAutoImplicit false

namespace IecUtils.Queue.Files

open IecUtils.Foundation.LinkTable

/-- `ino_t`. -/
abbrev Ino := UInt64

/-- The directories quemngr works in. `que q` is the directory of queue `q`: `in`
for queue 1, a subdirectory of `df` for the others. -/
inductive Dir where
  | drop
  | act
  | fail
  | que (q : Nat)
  deriving DecidableEq

/-- A file name as the number its text stands for. -/
abbrev Fs := List (Entry Dir Int Ino)

/-- The number `printf` shows for an inode under `%ld`. -/
def ld (i : Ino) : Int := if i.toNat < 2 ^ 63 then i.toNat else i.toNat - 2 ^ 64

/-- The number `strtoul` reads from a decimal name. -/
def strtoul (name : Int) : Ino :=
  if name < 2 ^ 64 ∧ -2 ^ 64 < name then UInt64.ofNat (name % 2 ^ 64).toNat else -1

/-- The file calls, less the ones that only synchronize directories. -/
inductive Call where
  | link (src dst : Dir × Int)
  | unlink (path : Dir × Int)
  | rename (src dst : Dir × Int)
  deriving DecidableEq

def Call.exec (fs : Fs) : Call → Except Errno Fs
  | .link src dst => Foundation.LinkTable.link fs src dst
  | .unlink path => Foundation.LinkTable.unlink fs path
  | .rename src dst => Foundation.LinkTable.rename fs src dst

/-- Inode `i` has a link under its own decimal number in `d`. -/
def Has (fs : Fs) (d : Dir) (i : Ino) : Prop := (⟨d, i.toNat, i⟩ : Entry Dir Int Ino) ∈ fs

instance (fs : Fs) (d : Dir) (i : Ino) : Decidable (Has fs d i) :=
  inferInstanceAs (Decidable (_ ∈ _))

/-- The links of a file outside `act`. -/
def homes (fs : Fs) (i : Ino) : Fs := fs.filter fun l => l.file = i ∧ l.dir ≠ .act

/-- A spool in order: every file is named by its inode number and has at most one
link outside `act`. -/
structure Spool (fs : Fs) : Prop where
  keyed : Keyed fs
  named : ∀ l ∈ fs, l.name = l.file.toNat
  once : ∀ {d e : Dir} {i : Ino}, Has fs d i → Has fs e i → d ≠ .act → e ≠ .act → d = e

section Spool

variable {fs fs' : Fs} {i j : Ino} {d e : Dir}

theorem Spool.has_of_mem (h : Spool fs) {l : Entry Dir Int Ino} (member : l ∈ fs) :
    Has fs l.dir l.file := by
  have named := h.named l member
  obtain ⟨dir, name, file⟩ := l
  simp only at named
  subst named
  exact member

theorem Spool.queue_unique (h : Spool fs) {q r : Nat} (here : Has fs (.que q) i)
    (there : Has fs (.que r) i) : q = r := by
  have same := h.once here there (fun active => by cases active) (fun active => by cases active)
  injection same

theorem Spool.has_of_path (h : Spool fs)
    (member : (⟨d, ld i, j⟩ : Entry Dir Int Ino) ∈ fs) :
    j = i ∧ ld i = i.toNat ∧ Has fs d i := by
  have named : ld i = j.toNat := h.named _ member
  have below := i.toNat_lt
  have plain : ld i = i.toNat := by
    unfold ld at named ⊢
    split
    · rfl
    · rename_i large
      rw [if_neg large] at named
      omega
  have same : j = i := by
    apply UInt64.toNat_inj.mp
    omega
  subst same
  refine ⟨rfl, plain, ?_⟩
  rw [plain] at member
  exact member

theorem Spool.mem_files (h : Spool fs) (d : Dir) (i : Ino) :
    i ∈ (fs.filter fun l => l.dir = d).map Entry.file ↔ Has fs d i := by
  simp only [List.mem_map, List.mem_filter, decide_eq_true_eq]
  constructor
  · rintro ⟨l, ⟨member, rfl⟩, rfl⟩
    exact h.has_of_mem member
  · intro here
    exact ⟨_, ⟨here, rfl⟩, rfl⟩

theorem Spool.files_nodup (h : Spool fs) (d : Dir) :
    ((fs.filter fun l => l.dir = d).map Entry.file).Nodup := by
  refine List.Nodup.map_on ?_ (List.Nodup.filter _ (List.Nodup.of_map _ h.keyed))
  intro a first b second same
  obtain ⟨member, dir⟩ := List.mem_filter.mp first
  obtain ⟨member', dir'⟩ := List.mem_filter.mp second
  refine h.keyed.unique member member' ?_
  have dirs : a.dir = b.dir := (of_decide_eq_true dir).trans (of_decide_eq_true dir').symm
  rw [Entry.path, Entry.path, dirs, h.named a member, h.named b member', same]

theorem Spool.homes_length (h : Spool fs) (here : Has fs d i) (outside : d ≠ .act) :
    (homes fs i).length = 1 := by
  have all : ∀ l ∈ homes fs i, l = (⟨d, i.toNat, i⟩ : Entry Dir Int Ino) := by
    intro l member
    obtain ⟨present, keeps⟩ := List.mem_filter.mp member
    obtain ⟨file, out⟩ : l.file = i ∧ l.dir ≠ .act := by simpa using keeps
    have there := h.has_of_mem present
    rw [file] at there
    have dir := h.once there here out outside
    have named := h.named l present
    obtain ⟨ldir, lname, lfile⟩ := l
    simp only at file dir named
    subst file dir named
    rfl
  have nodup : (homes fs i).Nodup := List.Nodup.filter _ (List.Nodup.of_map _ h.keyed)
  have listed : (⟨d, i.toNat, i⟩ : Entry Dir Int Ino) ∈ homes fs i := by
    refine List.mem_filter.mpr ⟨here, ?_⟩
    simpa using outside
  cases found : homes fs i with
  | nil =>
    rw [found] at listed
    cases listed
  | cons a rest =>
    cases rest with
    | nil => rfl
    | cons b rest =>
      rw [found] at all nodup
      have first := all a List.mem_cons_self
      have second := all b (List.mem_cons_of_mem _ List.mem_cons_self)
      rw [first, second] at nodup
      simp at nodup

private theorem has_inj {d e : Dir} {i j : Ino}
    (same : (⟨d, i.toNat, i⟩ : Entry Dir Int Ino) = ⟨e, j.toNat, j⟩) : d = e ∧ i = j := by
  injection same with dir _ file
  exact ⟨dir, file⟩

theorem has_concat (fs : Fs) (e : Dir) (i : Ino) (d : Dir) (j : Ino) :
    Has (fs ++ [⟨e, (i.toNat : Int), i⟩]) d j ↔ Has fs d j ∨ d = e ∧ j = i := by
  unfold Has
  rw [List.mem_append, List.mem_singleton]
  refine or_congr_right ⟨has_inj, ?_⟩
  rintro ⟨rfl, rfl⟩
  rfl

private theorem path_eq_iff {d e : Dir} {i j : Ino} :
    (⟨d, i.toNat, i⟩ : Entry Dir Int Ino).path = (e, (j.toNat : Int)) ↔ d = e ∧ i = j := by
  simp only [Entry.path, Prod.mk.injEq]
  refine and_congr_right fun _ => ?_
  rw [← UInt64.toNat_inj]
  omega

theorem Spool.copy (h : Spool fs) {q : Nat}
    (done : (Call.link (.que q, ld i) (.act, ld i)).exec fs = .ok fs') :
    Has fs (.que q) i ∧ ¬ Has fs .act i ∧ Spool fs' ∧
      ∀ d j, Has fs' d j ↔ Has fs d j ∨ d = .act ∧ j = i := by
  obtain ⟨k, source, free, rfl⟩ := link_ok done
  obtain ⟨rfl, plain, here⟩ := h.has_of_path source
  simp only at free ⊢
  rw [plain] at free ⊢
  have added := has_concat fs .act k
  refine ⟨here, fun busy => free _ busy rfl, ?_, added⟩
  refine ⟨h.keyed.snoc _ free k, ?_, ?_⟩
  · intro l member
    rcases List.mem_append.mp member with old | new
    · exact h.named l old
    · obtain rfl := List.mem_singleton.mp new
      rfl
  · intro d e j first second outside outside'
    rcases (added d j).mp first with old | ⟨rfl, _⟩
    · rcases (added e j).mp second with old' | ⟨rfl, _⟩
      · exact h.once old old' outside outside'
      · exact absurd rfl outside'
    · exact absurd rfl outside

theorem Spool.copy_exist (h : Spool fs)
    (failed : (Call.link (d, ld i) (.act, ld i)).exec fs = .error .exist) : Has fs .act i := by
  obtain ⟨j, taken⟩ := link_exist failed
  exact (h.has_of_path taken).2.2

private theorem ld_eq (small : i.toNat < 2 ^ 63) : ld i = i.toNat := by
  rw [ld, if_pos small]

theorem Spool.copy_taken (h : Spool fs) (small : i.toNat < 2 ^ 63) (here : Has fs d i)
    (active : Has fs .act i) :
    (Call.link (d, ld i) (.act, ld i)).exec fs = .error .exist := by
  rw [ld_eq small]
  exact link_taken h.keyed here active

theorem Spool.copy_ready (h : Spool fs) (small : i.toNat < 2 ^ 63) (here : Has fs d i)
    (idle : ¬ Has fs .act i) :
    ∃ fs', (Call.link (d, ld i) (.act, ld i)).exec fs = .ok fs' := by
  rw [ld_eq small]
  refine link_ready h.keyed here ?_
  intro l member there
  have own := h.has_of_mem member
  have named := h.named l member
  have name : l.name = i.toNat := congrArg Prod.snd there
  have dir : l.dir = .act := congrArg Prod.fst there
  have same : l.file = i := by
    apply UInt64.toNat_inj.mp
    omega
  rw [dir, same] at own
  exact idle own

theorem Spool.unlink_ready (h : Spool fs) (small : i.toNat < 2 ^ 63) (here : Has fs d i) :
    ∃ fs', (Call.unlink (d, ld i)).exec fs = .ok fs' := by
  rw [ld_eq small]
  exact Foundation.LinkTable.unlink_ready h.keyed here

theorem Spool.rename_ready (h : Spool fs) (small : i.toNat < 2 ^ 63) (here : Has fs d i)
    (dst : Dir × Int) : ∃ fs', (Call.rename (d, ld i) dst).exec fs = .ok fs' := by
  rw [ld_eq small]
  exact Foundation.LinkTable.rename_ready h.keyed here

theorem Spool.path_small (h : Spool fs) (member : (⟨d, ld i, j⟩ : Entry Dir Int Ino) ∈ fs) :
    i.toNat < 2 ^ 63 := by
  obtain ⟨_, plain, _⟩ := h.has_of_path member
  have below := i.toNat_lt
  unfold ld at plain
  split at plain
  · assumption
  · omega

private theorem Spool.erased (h : Spool fs) (d : Dir) (i : Ino) :
    Spool (erase fs (d, (i.toNat : Int))) ∧
      ∀ e j, Has (erase fs (d, (i.toNat : Int))) e j ↔ Has fs e j ∧ ¬ (e = d ∧ j = i) := by
  have left (e : Dir) (j : Ino) :
      Has (erase fs (d, (i.toNat : Int))) e j ↔ Has fs e j ∧ ¬ (e = d ∧ j = i) := by
    unfold Has
    rw [mem_erase, ne_eq, path_eq_iff]
  refine ⟨⟨h.keyed.erase, ?_, ?_⟩, left⟩
  · intro l member
    exact h.named l (mem_erase.mp member).1
  · intro e f j first second outside outside'
    exact h.once ((left _ _).mp first).1 ((left _ _).mp second).1 outside outside'

theorem Spool.unlinked (h : Spool fs)
    (done : (Call.unlink (d, ld i)).exec fs = .ok fs') :
    Has fs d i ∧ Spool fs' ∧ ∀ e j, Has fs' e j ↔ Has fs e j ∧ ¬ (e = d ∧ j = i) := by
  obtain ⟨⟨k, source⟩, rfl⟩ := unlink_ok done
  obtain ⟨rfl, plain, here⟩ := h.has_of_path source
  rw [plain]
  exact ⟨here, h.erased d k⟩

theorem Spool.moved (h : Spool fs) {name : Int} (outside : d ≠ .act) (outside' : e ≠ .act)
    (apart : d ≠ e) (done : (Call.rename (d, name) (e, name)).exec fs = .ok fs') :
    ∃ i : Ino, name = i.toNat ∧ Has fs d i ∧ Spool fs' ∧
      ∀ f j, Has fs' f j ↔ Has fs f j ∧ ¬ (f = d ∧ j = i) ∨ f = e ∧ j = i := by
  obtain ⟨i, source, result⟩ := rename_ok done
  have plain : name = i.toNat := h.named _ source
  simp only [plain] at source result
  refine ⟨i, plain, source, ?_⟩
  have absent : ¬ Has fs e i := fun there => apart (h.once source there outside outside')
  rcases result with ⟨there, _⟩ | rfl
  · exact absurd there absent
  · have unchanged : erase (erase fs (d, (i.toNat : Int))) (e, (i.toNat : Int)) =
        erase fs (d, (i.toNat : Int)) := by
      apply List.filter_eq_self.mpr
      intro l member
      have present := (mem_erase.mp member).1
      simp only [ne_eq, decide_eq_true_eq]
      intro here
      have own := h.has_of_mem present
      obtain ⟨ldir, lname, lfile⟩ := l
      have named : lname = (lfile.toNat : Int) := h.named _ present
      simp only [Entry.path, Prod.mk.injEq] at here
      obtain ⟨rfl, rfl⟩ := here
      have same : lfile = i := by
        apply UInt64.toNat_inj.mp
        omega
      exact absent (same ▸ own)
    rw [unchanged]
    have moved (f : Dir) (j : Ino) :
        Has (erase fs (d, (i.toNat : Int)) ++ [⟨e, (i.toNat : Int), i⟩]) f j ↔
          Has fs f j ∧ ¬ (f = d ∧ j = i) ∨ f = e ∧ j = i := by
      rw [has_concat, Has, mem_erase, ne_eq, path_eq_iff]
      rfl
    refine ⟨⟨?_, ?_, ?_⟩, moved⟩
    · refine h.keyed.erase.snoc (e, (i.toNat : Int)) ?_ i
      intro l member here
      have listed := mem_erase.mp (unchanged ▸ member)
      exact listed.2 here
    · intro l member
      rcases List.mem_append.mp member with old | new
      · exact h.named l (mem_erase.mp old).1
      · obtain rfl := List.mem_singleton.mp new
        rfl
    · intro f g j first second out out'
      rcases (moved f j).mp first with ⟨old, gone⟩ | ⟨rfl, rfl⟩
      · rcases (moved g j).mp second with ⟨old', _⟩ | ⟨rfl, rfl⟩
        · exact h.once old old' out out'
        · exact absurd ⟨h.once old source out outside, rfl⟩ gone
      · rcases (moved g j).mp second with ⟨old', gone⟩ | ⟨rfl, _⟩
        · exact absurd ⟨h.once old' source out' outside, rfl⟩ gone
        · rfl

end Spool

end IecUtils.Queue.Files
