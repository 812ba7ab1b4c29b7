/- Module: IecUtils/Foundation/NamedPipe
   source: none (named pipes as POSIX describes them)
   digest: One path that names a FIFO or a regular file, with one reader and any number of writers. -/

import IecUtils.Foundation.LinkTable

set_option autoImplicit false
set_option relaxedAutoImplicit false

namespace IecUtils.Foundation.NamedPipe

open IecUtils.Foundation.LinkTable

inductive Kind where
  | fifo
  | regular
  deriving DecidableEq

/-- A file with the number of octets written to it. -/
structure Node where
  kind : Kind
  octets : Nat
  deriving DecidableEq

/-- The files that were ever made at the path, the one it names now, and the one the
reader has open. -/
structure Pipe where
  nodes : List Node
  linked : Option Nat
  reader : Option Nat
  deriving DecidableEq

def mkfifo (p : Pipe) : Except Errno Pipe :=
  match p.linked with
  | some _ => .error .exist
  | none => .ok { p with nodes := p.nodes ++ [⟨.fifo, 0⟩], linked := some p.nodes.length }

def unlink (p : Pipe) : Except Errno Pipe :=
  match p.linked with
  | none => .error .noent
  | some _ => .ok { p with linked := none }

/-- `open` with O_RDONLY and O_NONBLOCK. -/
def openRead (p : Pipe) : Except Errno Pipe :=
  match p.linked with
  | none => .error .noent
  | some o => .ok { p with reader := some o }

def closeRead (p : Pipe) : Pipe := { p with reader := none }

/-- What `open` with O_WRONLY does to the caller: on a FIFO without a reader it waits
for one. -/
inductive Opening where
  | opened (o : Nat)
  | blocked (o : Nat)
  deriving DecidableEq

/-- `open` with O_WRONLY, O_CREAT and O_TRUNC. -/
def openWrite (p : Pipe) : Pipe × Opening :=
  match p.linked with
  | none =>
      ({ p with nodes := p.nodes ++ [⟨.regular, 0⟩], linked := some p.nodes.length },
        .opened p.nodes.length)
  | some o =>
      match p.nodes[o]? with
      | some ⟨.regular, _⟩ => ({ p with nodes := p.nodes.set o ⟨.regular, 0⟩ }, .opened o)
      | _ => (p, if p.reader = some o then .opened o else .blocked o)

/-- One octet is written to an open file. A FIFO without a reader takes none. -/
def write (p : Pipe) (o : Nat) : Pipe :=
  match p.nodes[o]? with
  | some ⟨.regular, n⟩ => { p with nodes := p.nodes.set o ⟨.regular, n + 1⟩ }
  | some ⟨.fifo, n⟩ =>
      if p.reader = some o then { p with nodes := p.nodes.set o ⟨.fifo, n + 1⟩ } else p
  | none => p

/-- `poll` finds the reader's file readable; a regular file always is. -/
def readable (p : Pipe) : Bool :=
  match p.reader.bind fun o => p.nodes[o]? with
  | some ⟨.regular, _⟩ => true
  | some ⟨.fifo, n⟩ => decide (0 < n)
  | none => false

def fifoLinked (p : Pipe) : Bool :=
  match p.linked.bind fun o => p.nodes[o]? with
  | some ⟨.fifo, _⟩ => true
  | _ => false

/-- The path and the reader refer to files that were made. -/
structure Valid (p : Pipe) : Prop where
  linked : ∀ o, p.linked = some o → o < p.nodes.length
  reader : ∀ o, p.reader = some o → o < p.nodes.length

section Calls

variable {p q : Pipe} {o : Nat}

theorem mkfifo_ok (done : mkfifo p = .ok q) : p.linked = none ∧
    q = { p with nodes := p.nodes ++ [⟨.fifo, 0⟩], linked := some p.nodes.length } := by
  unfold mkfifo at done
  split at done
  · cases done
  · rename_i free
    exact ⟨free, (Except.ok.inj done).symm⟩

theorem mkfifo_error {e : Errno} (failed : mkfifo p = .error e) :
    e = .exist ∧ ∃ o, p.linked = some o := by
  unfold mkfifo at failed
  split at failed
  · rename_i o taken
    exact ⟨(Except.error.inj failed).symm, o, taken⟩
  · cases failed

theorem unlink_linked (taken : p.linked = some o) : unlink p = .ok { p with linked := none } := by
  rw [unlink, taken]

theorem openRead_linked (taken : p.linked = some o) :
    openRead p = .ok { p with reader := some o } := by
  rw [openRead, taken]

private theorem readable_congr (ready : readable p = true) (reader : q.reader = p.reader)
    (same : ∀ r, p.reader = some r → q.nodes[r]? = p.nodes[r]?) : readable q = true := by
  unfold readable at ready ⊢
  rw [reader]
  cases found : p.reader with
  | none =>
    rw [found] at ready
    cases ready
  | some r =>
    rw [found] at ready
    rw [Option.bind_some, same r found]
    exact ready

private theorem readable_regular {r n : Nat} (reader : p.reader = some r)
    (node : p.nodes[r]? = some ⟨.regular, n⟩) : readable p = true := by
  rw [readable, reader, Option.bind_some, node]

private theorem readable_reader (ready : readable p = true) :
    ∃ r, p.reader = some r ∧ r < p.nodes.length := by
  unfold readable at ready
  cases reader : p.reader with
  | none =>
    rw [reader] at ready
    cases ready
  | some r =>
    refine ⟨r, rfl, ?_⟩
    by_contra outside
    rw [reader, Option.bind_some, List.getElem?_eq_none (Nat.le_of_not_lt outside)] at ready
    cases ready

private theorem readable_append (ready : readable p = true) (node : Node) (linked : Option Nat) :
    readable { p with nodes := p.nodes ++ [node], linked := linked } = true := by
  refine readable_congr ready rfl ?_
  intro r reader
  obtain ⟨r', reader', inside⟩ := readable_reader ready
  obtain rfl := Option.some.inj (reader.symm.trans reader')
  exact List.getElem?_append_left inside

/-- Opening for writing ends at the file the path names, and waits only for a reader
of a FIFO that has none. -/
theorem openWrite_spec (h : Valid p) :
    ∃ o, (openWrite p).1.linked = some o ∧
      (∀ r, p.linked = some r → (openWrite p).1.linked = some r) ∧
      (openWrite p).1.reader = p.reader ∧ Valid (openWrite p).1 ∧
      (readable p = true → readable (openWrite p).1 = true) ∧
      ((openWrite p).2 = .opened o ∨
        (openWrite p).2 = .blocked o ∧ p.linked = some o ∧ p.reader ≠ some o ∧
          ∃ n, p.nodes[o]? = some ⟨.fifo, n⟩) := by
  unfold openWrite
  cases path : p.linked with
  | none =>
    refine ⟨p.nodes.length, rfl, nofun, rfl, ⟨?_, ?_⟩, fun ready => readable_append ready _ _,
      .inl rfl⟩
    · intro o same
      obtain rfl := Option.some.inj same
      simp
    · intro o same
      have inside := h.reader o same
      simp only [List.length_append, List.length_singleton]
      omega
  | some o =>
    have inside := h.linked o path
    have found := List.getElem?_eq_getElem inside
    simp only
    split
    · rename_i n regular
      refine ⟨o, rfl, fun r same => same, rfl, ⟨?_, by simpa using h.reader⟩, ?_, .inl rfl⟩
      · intro r same
        obtain rfl := Option.some.inj same
        simpa using inside
      · intro ready
        by_cases own : p.reader = some o
        · refine readable_regular (r := o) (n := 0) own ?_
          simp [inside]
        · refine readable_congr ready rfl ?_
          intro r reader
          apply List.getElem?_set_ne
          rintro rfl
          exact own reader
    · rename_i other
      refine ⟨o, path, fun r same => path.trans same, rfl, h, fun ready => ready, ?_⟩
      by_cases reading : p.reader = some o
      · rw [if_pos reading]
        exact .inl rfl
      · rw [if_neg reading]
        refine .inr ⟨rfl, rfl, reading, ?_⟩
        cases node : p.nodes[o] with
        | mk kind octets =>
          rw [node] at found
          cases kind with
          | fifo => exact ⟨octets, found⟩
          | regular => exact absurd found (other octets)

theorem write_spec (h : Valid p) (o : Nat) :
    (write p o).linked = p.linked ∧ (write p o).reader = p.reader ∧ Valid (write p o) ∧
      (readable p = true ∨ p.reader = some o → readable (write p o) = true) := by
  have other {node : Node} (ready : readable p = true) (own : p.reader ≠ some o) :
      readable { p with nodes := p.nodes.set o node } = true := by
    refine readable_congr ready rfl ?_
    intro r reader
    apply List.getElem?_set_ne
    rintro rfl
    exact own reader
  have kept {node : Node} : Valid { p with nodes := p.nodes.set o node } :=
    ⟨by simpa using h.linked, by simpa using h.reader⟩
  unfold write
  split
  · rename_i n regular
    refine ⟨rfl, rfl, kept, ?_⟩
    intro cause
    by_cases own : p.reader = some o
    · refine readable_regular (r := o) (n := n + 1) own ?_
      simp [h.reader o own]
    · exact other (cause.resolve_right own) own
  · rename_i n fifo
    split
    · rename_i own
      refine ⟨rfl, rfl, kept, ?_⟩
      intro _
      simp [readable, own, h.reader o own]
    · rename_i away
      exact ⟨rfl, rfl, h, fun cause => cause.resolve_right away⟩
  · rename_i missing
    refine ⟨rfl, rfl, h, ?_⟩
    rintro (ready | own)
    · exact ready
    · rw [List.getElem?_eq_getElem (h.reader o own)] at missing
      cases missing

theorem fifoLinked_of_node {n : Nat} (path : p.linked = some o)
    (node : p.nodes[o]? = some ⟨.fifo, n⟩) : fifoLinked p = true := by
  rw [fifoLinked, path, Option.bind_some, node]

private theorem fifoLinked_set {node node' : Node} (was : p.nodes[o]? = some node)
    (kind : node'.kind = node.kind) :
    fifoLinked { p with nodes := p.nodes.set o node' } = fifoLinked p := by
  have inside := (List.getElem?_eq_some_iff.mp was).1
  unfold fifoLinked
  cases path : p.linked with
  | none => rfl
  | some r =>
    by_cases own : o = r
    · subst own
      obtain ⟨k, m⟩ := node
      obtain ⟨k', m'⟩ := node'
      obtain rfl : k' = k := kind
      simp only [Option.bind_some, was, List.getElem?_set_self inside]
      cases k' <;> rfl
    · simp only [Option.bind_some, List.getElem?_set_ne own]

theorem openWrite_fifoLinked : fifoLinked (openWrite p).1 = fifoLinked p := by
  unfold openWrite
  cases path : p.linked with
  | none => simp [fifoLinked, path]
  | some o =>
    simp only
    split
    · rename_i n regular
      rw [← path]
      exact fifoLinked_set regular rfl
    · rfl

theorem write_fifoLinked : fifoLinked (write p o) = fifoLinked p := by
  unfold write
  split
  · rename_i n regular
    exact fifoLinked_set regular rfl
  · rename_i n fifo
    split
    · exact fifoLinked_set fifo rfl
    · rfl
  · rfl

end Calls

end IecUtils.Foundation.NamedPipe
