/- Module: IecUtils/Queue/Syslog
   source: quemngr/syslogclient/syslogclient.c
   digest: The ring buffer of messages that wait for the syslog server, against a bounded queue. -/

import IecUtils.Foundation.Ring
import Mathlib.Data.List.Induction

set_option autoImplicit false
set_option relaxedAutoImplicit false

namespace IecUtils.Queue.Syslog

open IecUtils.Foundation.Ring

section Buffer

def sizeringbuf : Nat := 50

abbrev Text := List UInt8

/-- `struct ringbuf` with the memory that its pointers lead to. A pointer is the number of the
string that `strdup` made; `freed` has those given back, in order. -/
structure Ringbuf where
  msg : List (Option Nat)
  head : Nat
  tail : Nat
  size : Int
  strings : List Text
  freed : List Nat
  deriving DecidableEq

def Ringbuf.init : Ringbuf := ⟨List.replicate sizeringbuf none, 0, 0, 0, [], []⟩

/-- `free`; a null pointer changes nothing. -/
def Ringbuf.free (st : Ringbuf) (p : Option Nat) : Ringbuf :=
  { st with freed := st.freed ++ p.toList }

def nextIndex (i : Nat) : Nat := if i + 1 ≥ sizeringbuf then 0 else i + 1

/-- The branch of `pushmsg` on a full buffer: `tail` is counted up and not put back to 0. -/
def dropTail (st : Ringbuf) : Option Ringbuf :=
  match st.msg[st.tail]? with
  | none => none
  | some p => some { st.free p with tail := st.tail + 1, size := st.size - 1 }

def store (st : Ringbuf) (msg : Text) (next : Nat) : Option Ringbuf :=
  if st.head < st.msg.length then
    some { st with
      msg := st.msg.set st.head (some st.strings.length)
      strings := st.strings ++ [msg]
      head := next
      size := st.size + 1 }
  else none

/-- Every function is without result where it leaves the array. -/
def pushmsg (st : Ringbuf) (msg : Text) : Option Ringbuf :=
  let next := nextIndex st.head
  if next = st.tail then (dropTail st).bind fun st => store st msg next
  else store st msg next

def readtail (st : Ringbuf) : Option (Option Nat) :=
  if st.head = st.tail then some none else st.msg[st.tail]?

def deltail (st : Ringbuf) : Option (Int × Ringbuf) :=
  if st.head = st.tail then some (-1, st)
  else
    match st.msg[st.tail]? with
    | none => none
    | some p => some (0, { st.free p with tail := nextIndex st.tail, size := st.size - 1 })

inductive Op where
  | pushmsg (msg : Text)
  | readtail
  | deltail
  deriving DecidableEq

def step (st : Ringbuf) : Op → Option Ringbuf
  | .pushmsg msg => pushmsg st msg
  | .readtail => (readtail st).map fun _ => st
  | .deltail => (deltail st).map Prod.snd

def run (st : Ringbuf) : List Op → Option Ringbuf
  | [] => some st
  | op :: ops => (step st op).bind fun st => run st ops

end Buffer

section Queue

/-- What the buffer is for: 49 messages. -/
def specStep (q : Fifo Text) : Op → Fifo Text
  | .pushmsg msg => q.push (sizeringbuf - 1) msg
  | .readtail => q
  | .deltail => q.pop

def spec (ops : List Op) : Fifo Text := ops.foldl specStep .empty

def oldest (q : Fifo Text) : Option Nat := if q.live = [] then none else some q.gone.length

/-- The buffer holds the queue: the strings that were made are those that left the queue and those
in it, the former are given back, each once, and the slots from `tail` on lead to the latter. -/
structure Represents (st : Ringbuf) (q : Fifo Text) : Prop where
  slots : st.msg.length = sizeringbuf
  tail_lt : st.tail < sizeringbuf
  head_eq : st.head = (st.tail + q.live.length) % sizeringbuf
  size_eq : st.size = q.live.length
  short : q.live.length ≤ sizeringbuf - 1
  strings : st.strings = q.gone ++ q.live
  freed : st.freed = List.range q.gone.length
  holds : Holds st.msg st.tail ((List.range' q.gone.length q.live.length).map some)

/-- What can be seen of a buffer is what the queue says. -/
structure Behaves (st : Ringbuf) (q : Fifo Text) : Prop extends Represents st q where
  head_lt : st.head < sizeringbuf
  size_mod : st.size = ((st.head : Int) - st.tail) % sizeringbuf
  read : readtail st = some (oldest q)
  read_text : (oldest q).bind (st.strings[·]?) = q.live.head?
  del : (deltail st).map Prod.fst = some (if q.live = [] then -1 else 0)

theorem represents_init : Represents .init .empty where
  slots := rfl
  tail_lt := by decide
  head_eq := rfl
  size_eq := rfl
  short := by decide
  strings := rfl
  freed := rfl
  holds := holds_nil

variable {st : Ringbuf} {q : Fifo Text}

theorem Represents.head_eq_tail_iff (rep : Represents st q) : st.head = st.tail ↔ q.live = [] := by
  have tail := rep.tail_lt
  have head := rep.head_eq
  have short := rep.short
  unfold sizeringbuf at tail head short
  rw [← List.length_eq_zero_iff]
  omega

theorem Represents.slot (rep : Represents st q) (filled : q.live ≠ []) :
    st.msg[st.tail]? = some (some q.gone.length) := by
  obtain ⟨m, live, parts⟩ := List.exists_cons_of_ne_nil filled
  have holds := rep.holds
  rw [parts, List.length_cons, List.range'_succ, List.map_cons] at holds
  have first := holds.head
  rwa [rep.slots, Nat.mod_eq_of_lt rep.tail_lt] at first

theorem Represents.full_iff (rep : Represents st q) :
    nextIndex st.head = st.tail ↔ q.live.length = sizeringbuf - 1 := by
  have tail := rep.tail_lt
  have head := rep.head_eq
  have short := rep.short
  unfold nextIndex
  unfold sizeringbuf at tail head short ⊢
  split
  · omega
  · omega

private def advance (st : Ringbuf) (q : Fifo Text) : Ringbuf :=
  { st.free (some q.gone.length) with tail := nextIndex st.tail, size := st.size - 1 }

private theorem represents_advance (rep : Represents st q) (filled : q.live ≠ []) :
    Represents (advance st q) q.pop := by
  obtain ⟨m, live, parts⟩ := List.exists_cons_of_ne_nil filled
  have tail := rep.tail_lt
  have head := rep.head_eq
  have short := rep.short
  have size := rep.size_eq
  have holds := rep.holds
  have next : nextIndex st.tail = (st.tail + 1) % sizeringbuf := by
    unfold nextIndex
    unfold sizeringbuf at tail ⊢
    split
    · omega
    · omega
  have popped : q.pop = ⟨q.gone ++ [m], live⟩ := by rw [Fifo.pop, parts]; rfl
  rw [parts, List.length_cons] at head short size
  rw [parts, List.length_cons, List.range'_succ, List.map_cons] at holds
  rw [popped]
  constructor
  · exact rep.slots
  · change nextIndex st.tail < sizeringbuf
    rw [next]
    exact Nat.mod_lt _ (by decide)
  · change st.head = (nextIndex st.tail + live.length) % sizeringbuf
    rw [next, head]
    unfold sizeringbuf
    omega
  · change st.size - 1 = (live.length : Int)
    omega
  · exact Nat.le_of_succ_le short
  · change st.strings = (q.gone ++ [m]) ++ live
    rw [rep.strings, parts, List.append_assoc, List.singleton_append]
  · change st.freed ++ [q.gone.length] = List.range (q.gone ++ [m]).length
    rw [rep.freed, List.length_append, List.length_singleton, List.range_succ]
  · change Holds st.msg (nextIndex st.tail)
      ((List.range' (q.gone ++ [m]).length live.length).map some)
    have rest := holds.pop
    rw [rep.slots] at rest
    rwa [next, List.length_append, List.length_singleton]

theorem represents_deltail (rep : Represents st q) :
    ∃ st', deltail st = some (if q.live = [] then -1 else 0, st') ∧ Represents st' q.pop := by
  have empty := rep.head_eq_tail_iff
  by_cases none : q.live = []
  · refine ⟨st, ?_, ?_⟩
    · rw [deltail, if_pos (empty.mpr none), if_pos none]
    · have same : q.pop = q := by
        rw [Fifo.pop, none]
        cases q
        simp_all
      rwa [same]
  · refine ⟨advance st q, ?_, represents_advance rep none⟩
    rw [deltail, if_neg (mt empty.mp none), rep.slot none, if_neg none]
    rfl

theorem readtail_eq (rep : Represents st q) : readtail st = some (oldest q) := by
  have empty := rep.head_eq_tail_iff
  by_cases none : q.live = []
  · rw [readtail, if_pos (empty.mpr none), oldest, if_pos none]
  · rw [readtail, if_neg (mt empty.mp none), rep.slot none, oldest, if_neg none]

private theorem represents_store (rep : Represents st q) (room : q.live.length < sizeringbuf - 1)
    (msg : Text) : ∃ st', store st msg (nextIndex st.head) = some st' ∧
      Represents st' ⟨q.gone, q.live ++ [msg]⟩ := by
  have tail := rep.tail_lt
  have head := rep.head_eq
  have size := rep.size_eq
  have slots := rep.slots
  have head_lt : st.head < sizeringbuf := by
    rw [head]
    exact Nat.mod_lt _ (by decide)
  have next : nextIndex st.head = (st.head + 1) % sizeringbuf := by
    unfold nextIndex
    unfold sizeringbuf at head_lt ⊢
    split
    · omega
    · omega
  refine ⟨_, if_pos (slots ▸ head_lt), ?_⟩
  constructor
  · exact (List.length_set).trans slots
  · exact tail
  · change nextIndex st.head = (st.tail + (q.live ++ [msg]).length) % sizeringbuf
    rw [next, head, List.length_append, List.length_singleton, Nat.mod_add_mod, Nat.add_assoc]
  · change st.size + 1 = ((q.live ++ [msg]).length : Int)
    rw [List.length_append, List.length_singleton]
    omega
  · change (q.live ++ [msg]).length ≤ sizeringbuf - 1
    rw [List.length_append, List.length_singleton]
    exact room
  · change st.strings ++ [msg] = q.gone ++ (q.live ++ [msg])
    rw [rep.strings, List.append_assoc]
  · exact rep.freed
  · change Holds (st.msg.set st.head (some st.strings.length)) st.tail
      ((List.range' q.gone.length (q.live ++ [msg]).length).map some)
    have pushed := rep.holds.push (by simpa [slots] using Nat.lt_of_lt_of_le room (Nat.sub_le _ _))
      (some st.strings.length)
    rw [List.length_map, List.length_range', slots, ← head] at pushed
    rw [List.length_append, List.length_singleton, List.range'_concat, List.map_append]
    rw [rep.strings, List.length_append] at pushed ⊢
    simpa using pushed

/-- A push on a full buffer whose oldest message is in the last slot. -/
def Overrun (st : Ringbuf) : Op → Prop
  | .pushmsg _ => st.head = 48 ∧ st.tail = 49
  | _ => False

/-- `pushmsg` puts a message at the end; a full buffer drops its oldest one, unless that is in the
last slot. -/
theorem represents_pushmsg (rep : Represents st q) {msg : Text}
    (within : ¬Overrun st (.pushmsg msg)) :
    ∃ st', pushmsg st msg = some st' ∧ Represents st' (q.push (sizeringbuf - 1) msg) := by
  have full := rep.full_iff
  by_cases all : q.live.length = sizeringbuf - 1
  · have filled : q.live ≠ [] := by
      rintro none
      rw [none] at all
      cases all
    have inside : st.tail + 1 < sizeringbuf := by
      have tail := rep.tail_lt
      have head := rep.head_eq
      rw [all] at head
      unfold Overrun at within
      unfold sizeringbuf at tail head ⊢
      omega
    have drop : dropTail st = some (advance st q) := by
      rw [dropTail, rep.slot filled, advance, nextIndex, if_neg (by omega)]
    have popped : q.pop.live.length < sizeringbuf - 1 := by
      rw [Fifo.pop, List.length_drop, all]
      decide
    obtain ⟨st', stored, rep'⟩ := represents_store (represents_advance rep filled) popped msg
    refine ⟨st', ?_, ?_⟩
    · unfold pushmsg
      dsimp only
      rw [if_pos (full.mpr all), drop]
      exact stored
    · rwa [Fifo.push_of_full all]
  · have room : q.live.length < sizeringbuf - 1 := Nat.lt_of_le_of_ne rep.short all
    obtain ⟨st', stored, rep'⟩ := represents_store rep room msg
    refine ⟨st', ?_, ?_⟩
    · unfold pushmsg
      dsimp only
      rw [if_neg (mt full.mp all)]
      exact stored
    · rwa [Fifo.push_of_lt room]

theorem represents_step (rep : Represents st q) {op : Op} (within : ¬Overrun st op) :
    ∃ st', step st op = some st' ∧ Represents st' (specStep q op) := by
  cases op with
  | pushmsg msg => exact represents_pushmsg rep within
  | readtail =>
    refine ⟨st, ?_, rep⟩
    rw [step, readtail_eq rep]
    rfl
  | deltail =>
    obtain ⟨st', result, rep'⟩ := represents_deltail rep
    refine ⟨st', ?_, rep'⟩
    rw [step, result]
    rfl

theorem tail_of_overrun {op : Op} {st' : Ringbuf} (lost : Overrun st op)
    (result : step st op = some st') : st'.tail = sizeringbuf := by
  cases op with
  | readtail => exact lost.elim
  | deltail => exact lost.elim
  | pushmsg msg =>
    obtain ⟨head, tail⟩ := lost
    have next : nextIndex st.head = st.tail := by
      rw [head, tail]
      rfl
    change pushmsg st msg = some st' at result
    unfold pushmsg at result
    dsimp only at result
    rw [if_pos next, dropTail] at result
    split at result
    · cases result
    · rw [Option.bind_some, store] at result
      split at result
      · cases result
        change st.tail + 1 = sizeringbuf
        rw [tail]
        rfl
      · cases result

theorem Represents.behaves (rep : Represents st q) : Behaves st q := by
  have tail := rep.tail_lt
  have head := rep.head_eq
  have short := rep.short
  have size := rep.size_eq
  obtain ⟨st', del, _⟩ := represents_deltail rep
  refine { rep with
    head_lt := ?_
    size_mod := ?_
    read := readtail_eq rep
    read_text := ?_
    del := ?_ }
  · rw [head]
    exact Nat.mod_lt _ (by decide)
  · rw [size, head]
    unfold sizeringbuf at tail short ⊢
    omega
  · rw [rep.strings, oldest]
    by_cases none : q.live = []
    · rw [if_pos none, none]
      rfl
    · rw [if_neg none, Option.bind_some, List.getElem?_append_right (Nat.le_refl _), Nat.sub_self,
        List.head?_eq_getElem?]
  · rw [del]
    rfl

theorem run_concat (st : Ringbuf) (ops : List Op) (op : Op) :
    run st (ops ++ [op]) = (run st ops).bind fun st => step st op := by
  induction ops generalizing st with
  | nil =>
    rw [List.nil_append, run, run, Option.bind_some]
    cases step st op with
    | none => rfl
    | some st' => rfl
  | cons first ops ih =>
    rw [List.cons_append, run, run, Option.bind_assoc]
    congr 1
    ext st' : 1
    exact ih st'

theorem spec_concat (ops : List Op) (op : Op) : spec (ops ++ [op]) = specStep (spec ops) op := by
  rw [spec, List.foldl_append]
  rfl

def pushed (ops : List Op) : List Text :=
  ops.filterMap fun
    | .pushmsg msg => some msg
    | _ => none

theorem spec_all (ops : List Op) : (spec ops).gone ++ (spec ops).live = pushed ops := by
  induction ops using List.reverseRecOn with
  | nil => rfl
  | append_singleton ops op ih =>
    rw [spec_concat, pushed, List.filterMap_append]
    cases op with
    | pushmsg msg => exact (Fifo.push_all _ _ msg).trans (congrArg (· ++ [msg]) ih)
    | readtail => exact ih.trans (List.append_nil _).symm
    | deltail => exact ((spec ops).pop_all.trans ih).trans (List.append_nil _).symm

/-- All through a run the buffer is a queue of at most 49 messages, if and only if no push finds
it full with its oldest message in the last slot. -/
theorem behaves_iff (ops : List Op) :
    (∀ before, before <+: ops → ∃ st, run .init before = some st ∧ Behaves st (spec before)) ↔
      ∀ before op, before ++ [op] <+: ops → ∀ st, run .init before = some st → ¬Overrun st op := by
  constructor
  · intro good before op part st reached lost
    obtain ⟨st', result, behaves⟩ := good _ part
    rw [run_concat, reached, Option.bind_some] at result
    have left := tail_of_overrun lost result
    have tail := behaves.tail_lt
    omega
  · intro safe before
    induction before using List.reverseRecOn with
    | nil => exact fun _ => ⟨.init, rfl, represents_init.behaves⟩
    | append_singleton before op ih =>
      intro part
      obtain ⟨st, reached, behaves⟩ := ih ((List.prefix_append before [op]).trans part)
      obtain ⟨st', result, rep⟩ :=
        represents_step behaves.toRepresents (safe before op part st reached)
      refine ⟨st', ?_, ?_⟩
      · rw [run_concat, reached]
        exact result
      · rw [spec_concat]
        exact rep.behaves

/-- Ninety-nine messages that are not delivered take `tail` behind the last slot. -/
theorem run_twoLaps :
    ∃ st, run .init (List.replicate 99 (.pushmsg [])) = some st ∧ st.tail = 50 ∧
      ¬Behaves st (spec (List.replicate 99 (.pushmsg []))) := by
  have last : (run .init (List.replicate 99 (.pushmsg []))).map Ringbuf.tail = some 50 := by
    decide +kernel
  obtain ⟨st, reached, tail⟩ := Option.map_eq_some_iff.mp last
  refine ⟨st, reached, tail, ?_⟩
  intro behaves
  have inside := behaves.tail_lt
  rw [tail] at inside
  exact absurd inside (by decide)

end Queue

end IecUtils.Queue.Syslog
