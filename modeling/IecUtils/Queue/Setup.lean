/- Module: IecUtils/Queue/Setup
   source: initqueue of quemngr/quemngr.c, queue_add and queue_comp of quemngr/quecontrol.c, calctimeout of quemngr/utils.c
   digest: The queues set up from the directories of df, and which of them ACT and IN address after the sort. -/

import IecUtils.Queue.Manager
import Mathlib.Data.List.Sort
import Mathlib.Data.List.TakeWhile

set_option autoImplicit false
set_option relaxedAutoImplicit false

namespace IecUtils.Queue.Setup

open IecUtils.Queue.Manager

section Calctimeout

/-- `%2[0-9]` of `sscanf`: one or two digits, and what is behind them. -/
def scanDigits (s : List Char) : Option (List Char × List Char) :=
  match (s.take 2).takeWhile Char.isDigit with
  | [] => none
  | digits => some (digits, s.drop digits.length)

def scanChar (c : Char) : List Char → Option (List Char)
  | [] => none
  | x :: rest => if x = c then some rest else none

def atoi (digits : List Char) : Int :=
  digits.foldl (fun n c => 10 * n + (c.toNat - '0'.toNat : Nat)) 0

/-- The three conversions of the format; the `s` behind the last one decides nothing. -/
def scanName (dir : List Char) : Option (List Char × List Char × List Char) := do
  let (hour, rest) ← scanDigits dir
  let rest ← scanChar 'h' rest
  let (min, rest) ← scanDigits rest
  let rest ← scanChar 'm' rest
  let (sec, _) ← scanDigits rest
  return (hour, min, sec)

def calctimeout (dir : List Char) : Int :=
  match scanName dir with
  | none => -1
  | some (hour, min, sec) => atoi hour * 60 * 60 + atoi min * 60 + atoi sec

example : calctimeout "0h0m45s".toList = 45 := by decide
example : calctimeout "1h2m".toList = -1 := by decide

private theorem digit_le {c : Char} (digit : c.isDigit) : c.toNat - '0'.toNat ≤ 9 := by
  simp only [Char.isDigit, Bool.and_eq_true, decide_eq_true_eq] at digit
  have top : c.toNat ≤ '9'.toNat := digit.2
  have nine : '9'.toNat = '0'.toNat + 9 := by decide
  omega

private theorem atoi_le {s digits rest : List Char} (found : scanDigits s = some (digits, rest)) :
    atoi digits ≤ 99 := by
  unfold scanDigits at found
  split at found
  · cases found
  · obtain ⟨rfl, _⟩ := Prod.mk.inj (Option.some.inj found)
    have short : ((s.take 2).takeWhile Char.isDigit).length ≤ 2 :=
      (List.takeWhile_sublist _).length_le.trans (List.length_take_le 2 s)
    have digit : ∀ c ∈ (s.take 2).takeWhile Char.isDigit, c.toNat - '0'.toNat ≤ 9 :=
      fun c member => digit_le (List.mem_takeWhile_imp member)
    generalize (s.take 2).takeWhile Char.isDigit = digits at short digit
    rcases digits with _ | ⟨a, _ | ⟨b, _ | ⟨c, more⟩⟩⟩
    · decide
    · have first := digit a List.mem_cons_self
      simp only [atoi, List.foldl_cons, List.foldl_nil]
      omega
    · have first := digit a List.mem_cons_self
      have second := digit b (List.mem_cons_of_mem _ List.mem_cons_self)
      simp only [atoi, List.foldl_cons, List.foldl_nil]
      omega
    · simp only [List.length_cons] at short
      omega

/-- What `99h99m99s` stands for. -/
def longest : Int := 362439

theorem calctimeout_le (dir : List Char) : calctimeout dir ≤ longest := by
  unfold calctimeout longest
  split
  · decide
  · rename_i hour min sec found
    simp only [scanName, Option.bind_eq_bind, Option.bind_eq_some_iff] at found
    obtain ⟨⟨h, _⟩, hours, _, _, ⟨m, _⟩, mins, _, _, ⟨s, _⟩, secs, same⟩ := found
    obtain ⟨rfl, rfl, rfl⟩ : h = hour ∧ m = min ∧ s = sec := by
      have parts := Option.some.inj same
      exact ⟨congrArg Prod.fst parts, congrArg (Prod.fst ∘ Prod.snd) parts,
        congrArg (Prod.snd ∘ Prod.snd) parts⟩
    have := atoi_le hours
    have := atoi_le mins
    have := atoi_le secs
    omega

end Calctimeout

section Initqueue

def curdir : List Char := ".".toList
def parentdir : List Char := "..".toList
def df : List Char := "./df/".toList
def act : List Char := "./act/".toList
def new : List Char := "./in/".toList

/-- The fields of `struct msglist` that `initqueue` sets. -/
structure DirQueue where
  dir : List Char
  timeout : Int
  total : Int
  deriving DecidableEq

/-- The array `quelist` with the `short` that counts it. -/
structure Quelist where
  queues : List DirQueue
  quecount : Int
  deriving DecidableEq

/-- Conversion to `short`. -/
def toShort (n : Int) : Int := n.bmod (2 ^ 16)

/-- The new element is cleared. `quecount - 1` is what `queue_add` returns. -/
def queueAdd (s : Quelist) : Quelist :=
  if s.queues = [] ∨ 0 < s.quecount then
    ⟨s.queues ++ [⟨[], 0, 0⟩], toShort (s.quecount + 1)⟩
  else s

/-- `queue_add` and the assignments to `quelist[countq]`, which need an index of the
array. -/
def newQueue (q : DirQueue) (s : Quelist) : Option Quelist :=
  let s := queueAdd s
  let countq := s.quecount - 1
  if 0 ≤ countq ∧ countq < s.queues.length then
    some { s with queues := s.queues.set countq.toNat q }
  else none

/-- What `readdir` and `stat` say of an entry of `df`. -/
structure DfEntry where
  name : List Char
  isDir : Bool

def DfEntry.accepted (d : DfEntry) : Bool :=
  d.name ≠ curdir && d.name ≠ parentdir && d.isDir && 0 < calctimeout d.name

def DfEntry.queue (d : DfEntry) : DirQueue := ⟨df ++ d.name, calctimeout d.name, 0⟩

def readDf : List DfEntry → Quelist → Option Quelist
  | [], s => some s
  | d :: rest, s => if d.accepted then (newQueue d.queue s).bind (readDf rest) else readDf rest s

def actQueue : DirQueue := ⟨act, 0, -1⟩
def inQueue : DirQueue := ⟨new, 0, 0⟩

def queueComp (q1 q2 : DirQueue) : Int :=
  let diff := q1.timeout - q2.timeout
  if diff < 0 then -1 else if diff > 0 then 1 else 0

/-- What the standard promises of `qsort` with `queue_comp`. -/
def Sorts (qsort : List DirQueue → List DirQueue) : Prop :=
  ∀ l, (qsort l).Perm l ∧ (qsort l).Pairwise fun a b => queueComp a b ≤ 0

/-- `initqueue` up to the sort. -/
def setup (qsort : List DirQueue → List DirQueue) (entries : List DfEntry) : Option (List DirQueue) := do
  let s ← newQueue actQueue ⟨[], 0⟩
  let s ← newQueue inQueue s
  let s ← readDf entries s
  return qsort s.queues

/-- The indices mean what the rest of the program takes them for. -/
structure Indexed (quelist : List DirQueue) : Prop where
  act : (quelist[ACT]?).map DirQueue.dir = some act
  new : (quelist[IN]?).map DirQueue.dir = some new
  deferred : (quelist.drop 2).Pairwise fun a b => a.timeout ≤ b.timeout

/-- The queues of the directories in `df`, in the order of `readdir`. -/
def deferredQueues (entries : List DfEntry) : List DirQueue :=
  (entries.filter DfEntry.accepted).map DfEntry.queue

end Initqueue

section Counting

variable {s : Quelist}

/-- The `short` holds the number of queues. -/
def Counted (s : Quelist) : Prop := s.quecount = s.queues.length ∧ s.queues.length ≤ 32767

theorem newQueue_room (q : DirQueue) (counted : Counted s) (room : s.queues.length < 32767) :
    newQueue q s = some ⟨s.queues ++ [q], s.quecount + 1⟩ ∧
      Counted ⟨s.queues ++ [q], s.quecount + 1⟩ := by
  obtain ⟨count, _⟩ := counted
  have add : queueAdd s = ⟨s.queues ++ [⟨[], 0, 0⟩], s.quecount + 1⟩ := by
    have keeps : toShort (s.quecount + 1) = s.quecount + 1 :=
      Int.bmod_eq_of_le (by omega) (by omega)
    rw [queueAdd, keeps, if_pos]
    by_cases empty : s.queues = []
    · exact Or.inl empty
    · have positive := List.length_pos_iff.mpr empty
      exact Or.inr (by omega)
  have last : (s.quecount + 1 - 1).toNat = s.queues.length := by omega
  have length : (s.queues ++ [q]).length = s.queues.length + 1 := List.length_append
  refine ⟨?_, ?_, ?_⟩
  · unfold newQueue
    rw [add]
    simp only [last, List.length_append, List.length_singleton]
    rw [if_pos (by omega), List.set_append_right _ _ (Nat.le_refl _), Nat.sub_self]
    rfl
  · show s.quecount + 1 = ((s.queues ++ [q]).length : Int)
    omega
  · show (s.queues ++ [q]).length ≤ 32767
    omega

theorem newQueue_full (q : DirQueue) (counted : Counted s) (full : s.queues.length = 32767) :
    newQueue q s = none := by
  obtain ⟨count, _⟩ := counted
  have wraps : toShort (s.quecount + 1) = -32768 := by
    rw [count, full]
    rfl
  have add : queueAdd s = ⟨s.queues ++ [⟨[], 0, 0⟩], -32768⟩ := by
    rw [queueAdd, wraps, if_pos (Or.inr (by omega))]
  rw [newQueue, add]
  rfl

theorem readDf_eq (entries : List DfEntry) (counted : Counted s) :
    (readDf entries s).map Quelist.queues =
      if s.queues.length + (deferredQueues entries).length ≤ 32767 then
        some (s.queues ++ deferredQueues entries) else none := by
  induction entries generalizing s with
  | nil =>
    have none : deferredQueues [] = [] := rfl
    rw [none, List.length_nil, Nat.add_zero, if_pos counted.2, List.append_nil]
    rfl
  | cons d rest ih =>
    unfold readDf
    by_cases accepted : d.accepted = true
    · have more : deferredQueues (d :: rest) = d.queue :: deferredQueues rest := by
        rw [deferredQueues, List.filter_cons_of_pos accepted]
        rfl
      rw [if_pos accepted, more, List.length_cons]
      by_cases room : s.queues.length < 32767
      · obtain ⟨added, still⟩ := newQueue_room d.queue counted room
        rw [added, Option.bind_some, ih still]
        simp only [List.length_append, List.length_singleton, List.append_assoc, List.cons_append,
          List.nil_append, Nat.add_assoc, Nat.add_comm 1]
      · rw [newQueue_full _ counted (by have := counted.2; omega), if_neg (by omega)]
        rfl
    · have same : deferredQueues (d :: rest) = deferredQueues rest := by
        rw [deferredQueues, List.filter_cons_of_neg accepted]
        rfl
      rw [if_neg accepted, same]
      exact ih counted

theorem setup_eq (qsort : List DirQueue → List DirQueue) (entries : List DfEntry) :
    setup qsort entries =
      if (deferredQueues entries).length ≤ 32765 then
        some (qsort (actQueue :: inQueue :: deferredQueues entries)) else none := by
  have first : newQueue actQueue ⟨[], 0⟩ = some ⟨[actQueue], 1⟩ := by decide
  have second : newQueue inQueue ⟨[actQueue], 1⟩ = some ⟨[actQueue, inQueue], 2⟩ := by decide
  have counted : Counted ⟨[actQueue, inQueue], 2⟩ := ⟨rfl, by decide⟩
  have loop := readDf_eq entries counted
  have same : setup qsort entries =
      ((readDf entries ⟨[actQueue, inQueue], 2⟩).map Quelist.queues).map qsort := by
    simp only [setup, first, second, Option.bind_eq_bind, Option.bind_some]
    cases readDf entries ⟨[actQueue, inQueue], 2⟩ <;> rfl
  rw [same, loop]
  by_cases fits : (deferredQueues entries).length ≤ 32765
  · rw [if_pos fits, if_pos (by simp only [List.length_cons, List.length_nil]; omega)]
    rfl
  · rw [if_neg fits, if_neg (by simp only [List.length_cons, List.length_nil]; omega)]
    rfl

end Counting

section Order

/-- In a sorted arrangement two elements with a key below all others come first, in either
order. -/
theorem two_least_first {α : Type} (key : α → Int) {a b : α} {others l : List α}
    (perm : l.Perm (a :: b :: others)) (sorted : l.Pairwise fun x y => key x ≤ key y)
    (equal : key a = key b) (above : ∀ x ∈ others, key a < key x) :
    ∃ rest, rest.Perm others ∧ (l = a :: b :: rest ∨ l = b :: a :: rest) := by
  -- the least element of what is left of a list with `c` and the others is `c`
  have single {c : α} {t : List α} (same : key a = key c) (p : t.Perm (c :: others))
      (s : t.Pairwise fun x y => key x ≤ key y) : ∃ rest, rest.Perm others ∧ t = c :: rest := by
    cases t with
    | nil => exact absurd p.length_eq (by simp)
    | cons y rest =>
      have least : key y ≤ key c := by
        rcases List.mem_cons.mp (p.symm.subset List.mem_cons_self) with rfl | behind
        · exact Int.le_refl _
        · exact (List.pairwise_cons.mp s).1 c behind
      rcases List.mem_cons.mp (p.subset List.mem_cons_self) with rfl | other
      · exact ⟨rest, p.cons_inv, rfl⟩
      · have := above y other
        omega
  cases l with
  | nil => exact absurd perm.length_eq (by simp)
  | cons x t =>
    obtain ⟨lowest, tail⟩ := List.pairwise_cons.mp sorted
    have least : key x ≤ key a := by
      rcases List.mem_cons.mp (perm.symm.subset List.mem_cons_self) with rfl | behind
      · exact Int.le_refl _
      · exact lowest a behind
    rcases List.mem_cons.mp (perm.subset List.mem_cons_self) with rfl | member
    · obtain ⟨rest, others, rfl⟩ := single equal perm.cons_inv tail
      exact ⟨rest, others, Or.inl rfl⟩
    · rcases List.mem_cons.mp member with rfl | other
      · obtain ⟨rest, others, rfl⟩ := single rfl (perm.trans (List.Perm.swap _ _ _)).cons_inv tail
        exact ⟨rest, others, Or.inr rfl⟩
      · have := above x other
        omega

theorem queueComp_le_iff (q1 q2 : DirQueue) : queueComp q1 q2 ≤ 0 ↔ q1.timeout ≤ q2.timeout := by
  unfold queueComp
  dsimp only
  split
  · exact iff_of_true (by decide) (by omega)
  · split
    · exact iff_of_false (by decide) (by omega)
    · exact iff_of_true (by decide) (by omega)

theorem deferredQueues_timeout {entries : List DfEntry} {q : DirQueue}
    (member : q ∈ deferredQueues entries) : 0 < q.timeout := by
  obtain ⟨d, taken, rfl⟩ := List.mem_map.mp member
  have accepted := (List.mem_filter.mp taken).2
  simp only [DfEntry.accepted, Bool.and_eq_true, decide_eq_true_eq] at accepted
  exact accepted.2

/-- For every `df` and every order of its entries: the indices are right after the sort
exactly if there are not more queues than a `short` counts and `qsort` leaves `act` before
`in`, which compare equal. -/
theorem setup_indexed_iff (entries : List DfEntry) {qsort : List DirQueue → List DirQueue}
    (sorts : Sorts qsort) :
    (∃ quelist, setup qsort entries = some quelist ∧ Indexed quelist) ↔
      (deferredQueues entries).length ≤ 32765 ∧
        [actQueue, inQueue].Sublist (qsort (actQueue :: inQueue :: deferredQueues entries)) := by
  rw [setup_eq]
  by_cases fits : (deferredQueues entries).length ≤ 32765
  · obtain ⟨perm, sorted⟩ := sorts (actQueue :: inQueue :: deferredQueues entries)
    have ordered := sorted.imp fun h => (queueComp_le_iff _ _).mp h
    obtain ⟨rest, others, shape⟩ := two_least_first DirQueue.timeout perm ordered rfl
      fun x member => deferredQueues_timeout member
    rw [if_pos fits]
    simp only [fits, true_and, Option.some.injEq, exists_eq_left']
    rcases shape with shape | shape
    · rw [shape] at ordered ⊢
      refine iff_of_true ⟨rfl, rfl, ?_⟩ ?_
      · exact (List.pairwise_cons.mp (List.pairwise_cons.mp ordered).2).2
      · exact ((List.nil_sublist rest).cons_cons inQueue).cons_cons actQueue
    · rw [shape]
      refine iff_of_false ?_ ?_
      · rintro ⟨wrong, _, _⟩
        have swapped : some new = some act := wrong
        exact absurd swapped (by decide)
      · intro kept
        cases kept with
        | cons _ kept =>
          cases kept with
          | cons _ kept =>
            have twice := others.subset (kept.subset List.mem_cons_self)
            exact absurd (deferredQueues_timeout twice) (by decide)
          | cons_cons _ kept =>
            have twice := others.subset (kept.subset List.mem_cons_self)
            exact absurd (deferredQueues_timeout twice) (by decide)
  · rw [if_neg fits]
    refine iff_of_false ?_ fun both => fits both.1
    rintro ⟨_, nothing, _⟩
    cases nothing

/-- A `qsort` by insertion, which is stable. -/
def insertion : List DirQueue → List DirQueue := List.insertionSort fun a b => queueComp a b ≤ 0

def insertionBackwards (l : List DirQueue) : List DirQueue := insertion l.reverse

theorem insertion_sorts : Sorts insertion := by
  have total : Std.Total fun a b : DirQueue => queueComp a b ≤ 0 := ⟨fun a b => by
    rw [queueComp_le_iff, queueComp_le_iff]
    exact Int.le_total _ _⟩
  have trans : IsTrans DirQueue fun a b => queueComp a b ≤ 0 := ⟨fun a b c => by
    rw [queueComp_le_iff, queueComp_le_iff, queueComp_le_iff]
    exact Int.le_trans⟩
  intro l
  exact ⟨List.perm_insertionSort _ l, List.pairwise_insertionSort _ l⟩

theorem insertionBackwards_sorts : Sorts insertionBackwards := by
  intro l
  obtain ⟨perm, sorted⟩ := insertion_sorts l.reverse
  exact ⟨perm.trans l.reverse_perm, sorted⟩

/-- The directories `iecinit` makes, in some order. -/
def shipped : List DfEntry :=
  [⟨"0h0m45s".toList, true⟩, ⟨"..".toList, true⟩, ⟨"0h0m30s".toList, true⟩, ⟨"0h0m60s".toList, true⟩]

theorem shipped_indexed : ∃ quelist, setup insertion shipped = some quelist ∧ Indexed quelist :=
  (setup_indexed_iff shipped insertion_sorts).mpr ⟨by decide, by decide⟩

/-- A sort that turns the two equal elements round makes `in` the list of messages in
flight. -/
theorem shipped_swapped :
    Sorts insertionBackwards ∧ ∃ quelist, setup insertionBackwards shipped = some quelist ∧
      (quelist[ACT]?).map DirQueue.dir = some new ∧ (quelist[IN]?).map DirQueue.dir = some act ∧
        ¬ Indexed quelist := by
  refine ⟨insertionBackwards_sorts, _, rfl, by decide, by decide, ?_⟩
  rintro ⟨wrong, _, _⟩
  exact absurd wrong (by decide)

end Order

end IecUtils.Queue.Setup
