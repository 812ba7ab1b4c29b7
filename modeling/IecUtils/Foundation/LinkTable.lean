/- Module: IecUtils/Foundation/LinkTable
   source: none (hard links as POSIX describes link, unlink and rename)
   digest: A table of named links to files, the three calls that change it and what they leave. -/

import Mathlib.Data.List.Nodup
import Mathlib.Tactic.Common

set_option autoImplicit false
set_option relaxedAutoImplicit false

namespace IecUtils.Foundation.LinkTable

universe u v w

/-- A directory entry: a name in a directory and the file it links to. -/
structure Entry (δ : Type u) (ν : Type v) (ι : Type w) where
  dir : δ
  name : ν
  file : ι
  deriving DecidableEq

inductive Errno where
  | noent
  | exist
  deriving DecidableEq

section Table

variable {δ : Type u} {ν : Type v} {ι : Type w}

def Entry.path (l : Entry δ ν ι) : δ × ν := (l.dir, l.name)

def Keyed (t : List (Entry δ ν ι)) : Prop := (t.map Entry.path).Nodup

variable [DecidableEq δ] [DecidableEq ν] [DecidableEq ι]

def lookup (t : List (Entry δ ν ι)) (path : δ × ν) : Option ι :=
  (t.find? fun l => l.path = path).map Entry.file

def erase (t : List (Entry δ ν ι)) (path : δ × ν) : List (Entry δ ν ι) :=
  t.filter fun l => l.path ≠ path

def link (t : List (Entry δ ν ι)) (src dst : δ × ν) : Except Errno (List (Entry δ ν ι)) :=
  match lookup t src with
  | none => .error .noent
  | some i => if (lookup t dst).isSome then .error .exist else .ok (t ++ [⟨dst.1, dst.2, i⟩])

def unlink (t : List (Entry δ ν ι)) (path : δ × ν) : Except Errno (List (Entry δ ν ι)) :=
  match lookup t path with
  | none => .error .noent
  | some _ => .ok (erase t path)

/-- An entry at the destination is replaced; two links to one file stay as they are. -/
def rename (t : List (Entry δ ν ι)) (src dst : δ × ν) : Except Errno (List (Entry δ ν ι)) :=
  match lookup t src with
  | none => .error .noent
  | some i =>
      if lookup t dst = some i then .ok t
      else .ok (erase (erase t src) dst ++ [⟨dst.1, dst.2, i⟩])

variable {t t' : List (Entry δ ν ι)} {path src dst : δ × ν} {i : ι}

omit [DecidableEq δ] [DecidableEq ν] [DecidableEq ι] in
theorem Keyed.unique (h : Keyed t) {l m : Entry δ ν ι} (hl : l ∈ t) (hm : m ∈ t)
    (same : l.path = m.path) : l = m :=
  List.inj_on_of_nodup_map h hl hm same

omit [DecidableEq ι] in
theorem lookup_mem (found : lookup t path = some i) :
    (⟨path.1, path.2, i⟩ : Entry δ ν ι) ∈ t := by
  obtain ⟨l, first, rfl⟩ := Option.map_eq_some_iff.mp found
  have here : l.path = path := by simpa using List.find?_some first
  have member := List.mem_of_find?_eq_some first
  rw [← here]
  exact member

omit [DecidableEq ι] in
theorem lookup_of_mem (h : Keyed t) {l : Entry δ ν ι} (member : l ∈ t) :
    lookup t l.path = some l.file := by
  cases found : lookup t l.path with
  | none =>
    have absent := Option.map_eq_none_iff.mp found
    have nowhere := List.find?_eq_none.mp absent l member
    simp at nowhere
  | some i =>
    have other := lookup_mem found
    have same := h.unique other member rfl
    rw [← same]

omit [DecidableEq ι] in
theorem mem_erase {l : Entry δ ν ι} : l ∈ erase t path ↔ l ∈ t ∧ l.path ≠ path := by
  simp [erase]

omit [DecidableEq ι] in
theorem Keyed.erase (h : Keyed t) : Keyed (erase t path) :=
  List.Nodup.sublist ((List.filter_sublist).map _) h

omit [DecidableEq δ] [DecidableEq ν] [DecidableEq ι] in
theorem Keyed.snoc (h : Keyed t) (path : δ × ν) (absent : ∀ l ∈ t, l.path ≠ path) (i : ι) :
    Keyed (t ++ [⟨path.1, path.2, i⟩]) := by
  unfold Keyed at h ⊢
  rw [List.map_append, List.nodup_append]
  refine ⟨h, List.nodup_singleton _, ?_⟩
  intro a old b new
  obtain ⟨l, member, rfl⟩ := List.mem_map.mp old
  obtain rfl := List.mem_singleton.mp new
  exact absent l member

omit [DecidableEq ι] in
private theorem absent_of_lookup (none : lookup t path = none) : ∀ l ∈ t, l.path ≠ path := by
  intro l member same
  have nowhere := List.find?_eq_none.mp (Option.map_eq_none_iff.mp none) l member
  simp [same] at nowhere

omit [DecidableEq ι] in
theorem link_ok (done : link t src dst = .ok t') :
    ∃ i, (⟨src.1, src.2, i⟩ : Entry δ ν ι) ∈ t ∧ (∀ l ∈ t, l.path ≠ dst) ∧
      t' = t ++ [⟨dst.1, dst.2, i⟩] := by
  unfold link at done
  split at done
  · cases done
  · rename_i i found
    split at done
    · cases done
    · rename_i free
      refine ⟨i, lookup_mem found, absent_of_lookup (by simpa using free), ?_⟩
      exact (Except.ok.inj done).symm

omit [DecidableEq ι] in
theorem unlink_ok (done : unlink t path = .ok t') :
    (∃ i, (⟨path.1, path.2, i⟩ : Entry δ ν ι) ∈ t) ∧ t' = erase t path := by
  unfold unlink at done
  split at done
  · cases done
  · rename_i i found
    exact ⟨⟨i, lookup_mem found⟩, (Except.ok.inj done).symm⟩

omit [DecidableEq ι] in
theorem link_exist (failed : link t src dst = .error .exist) :
    ∃ i, (⟨dst.1, dst.2, i⟩ : Entry δ ν ι) ∈ t := by
  unfold link at failed
  split at failed
  · cases failed
  · split at failed
    · rename_i taken
      obtain ⟨j, found⟩ := Option.isSome_iff_exists.mp taken
      exact ⟨j, lookup_mem found⟩
    · cases failed

omit [DecidableEq ι] in
theorem link_taken (h : Keyed t) {j : ι} (source : (⟨src.1, src.2, i⟩ : Entry δ ν ι) ∈ t)
    (taken : (⟨dst.1, dst.2, j⟩ : Entry δ ν ι) ∈ t) : link t src dst = .error .exist := by
  have first : lookup t src = some i := lookup_of_mem h source
  have second : lookup t dst = some j := lookup_of_mem h taken
  simp [link, first, second]

omit [DecidableEq ι] in
theorem link_ready (h : Keyed t) (source : (⟨src.1, src.2, i⟩ : Entry δ ν ι) ∈ t)
    (free : ∀ l ∈ t, l.path ≠ dst) : ∃ t', link t src dst = .ok t' := by
  have first : lookup t src = some i := lookup_of_mem h source
  have second : lookup t dst = none := by
    cases found : lookup t dst with
    | none => rfl
    | some j => exact absurd rfl (free _ (lookup_mem found))
  simp [link, first, second]

omit [DecidableEq ι] in
theorem unlink_ready (h : Keyed t) (present : (⟨path.1, path.2, i⟩ : Entry δ ν ι) ∈ t) :
    ∃ t', unlink t path = .ok t' := by
  have found : lookup t path = some i := lookup_of_mem h present
  simp [unlink, found]

theorem rename_ready (h : Keyed t) (source : (⟨src.1, src.2, i⟩ : Entry δ ν ι) ∈ t) :
    ∃ t', rename t src dst = .ok t' := by
  have found : lookup t src = some i := lookup_of_mem h source
  unfold rename
  rw [found]
  simp only
  split
  · exact ⟨_, rfl⟩
  · exact ⟨_, rfl⟩

theorem rename_ok (done : rename t src dst = .ok t') :
    ∃ i, (⟨src.1, src.2, i⟩ : Entry δ ν ι) ∈ t ∧
      ((⟨dst.1, dst.2, i⟩ : Entry δ ν ι) ∈ t ∧ t' = t ∨
        t' = erase (erase t src) dst ++ [⟨dst.1, dst.2, i⟩]) := by
  unfold rename at done
  split at done
  · cases done
  · rename_i i found
    refine ⟨i, lookup_mem found, ?_⟩
    split at done
    · rename_i same
      exact .inl ⟨lookup_mem same, (Except.ok.inj done).symm⟩
    · exact .inr (Except.ok.inj done).symm

end Table

end IecUtils.Foundation.LinkTable
