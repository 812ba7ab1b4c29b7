/- Module: IecUtils/Asdu/Readback
   source: transform_asdu and the sort of scripts/asduconv
   digest: The objects read out of what print_asdu is handed are the sorted records. -/

import IecUtils.Asdu.Assembler
import Mathlib.Data.List.Range

set_option autoImplicit false
set_option relaxedAutoImplicit false

namespace IecUtils.Asdu.Readback

open IecUtils.Foundation.Hex
open IecUtils.Foundation.Grouping
open IecUtils.Asdu.Encoding
open IecUtils.Asdu.Assembler

section Program

def numeric (mode : FloatFunc) : Fields Nat Body where
  mode := mode
  differ a b := a != b
  follows a b := a == b + 1
  format w v := formatX w v
  pads w v := le_length_formatX w v
  iehex := iehex mode
  sized := length_iehex mode

/-- `sort -b -s -n -k1,1 -k3,3 -k2,2`. -/
def order (a b : Entry Nat Body) : Bool :=
  a.ca < b.ca || a.ca == b.ca && (a.type.code < b.type.code ||
    a.type.code == b.type.code && a.oa ≤ b.oa)

def sortRecords (file : List (Entry Nat Body)) : List (Entry Nat Body) := file.mergeSort order

/-- What `print_asdu` is handed, for a file of records of the four types. -/
def asduconv (mode : FloatFunc) (file : List (Entry Nat Body)) : List (Option (Vars Nat)) :=
  transformAsdu (numeric mode) ((sortRecords file).map some)

/-- A common address of 16 bits and an object address of 24 bits. -/
structure InRange (e : Entry Nat Body) : Prop where
  ca : e.ca < 2 ^ 16
  oa : e.oa < 2 ^ 24

end Program

section Reading

/-- An information object with the addresses it has in its unit. -/
structure Object where
  ca : Nat
  type : AsduType
  oa : Nat
  element : List Char
  deriving DecidableEq, Repr

def readObjects (w : Nat) : Nat → List Char → Option (List (Nat × List Char))
  | 0, data => if data = [] then some [] else none
  | n + 1, data =>
      if data.length < 6 + w then none
      else (readObjects w n (data.drop (6 + w))).map
        ((littleEndian (data.take 6), (data.drop 6).take w) :: ·)

def readRun (w : Nat) : Nat → Nat → List Char → Option (List (Nat × List Char))
  | _, 0, data => if data = [] then some [] else none
  | addr, n + 1, data =>
      if data.length < w then none
      else (readRun w (addr + 1) n (data.drop w)).map ((addr, data.take w) :: ·)

def readAsdu (mode : FloatFunc) (v : Vars Nat) : Option (List Object) :=
  let w := width mode v.asduType
  let parts :=
    if v.sq then
      if v.data.length < 6 then none
      else readRun w (littleEndian (v.data.take 6)) v.asduCount (v.data.drop 6)
    else readObjects w v.asduCount v.data
  parts.map fun parts => parts.map fun p => ⟨v.asduAddr, v.asduType, p.1, p.2⟩

def readPrinted (mode : FloatFunc) : Option (Vars Nat) → Option (List Object)
  | none => none
  | some v => readAsdu mode v

def object (mode : FloatFunc) (e : Entry Nat Body) : Object :=
  ⟨e.ca, e.type, e.oa, iehex mode e.type e.body⟩

end Reading

section Parts

variable {mode : FloatFunc} {type : AsduType}

theorem length_address (oa : Nat) : (addrHex (numeric mode) oa 3).length = 6 := length_addrHex _ _ _

theorem littleEndian_addrHex {oa : Nat} (small : oa < 2 ^ 24) :
    littleEndian (addrHex (numeric mode) oa 3) = oa :=
  littleEndian_int2hex (by decide) (by omega)

theorem readObjects_members {es : List (Entry Nat Body)} (types : ∀ e ∈ es, e.type = type)
    (range : ∀ e ∈ es, InRange e) :
    readObjects (width mode type) es.length
        (es.flatMap fun e => formObj (numeric mode) e.oa e.type e.body) =
      some (es.map fun e => (e.oa, iehex mode e.type e.body)) := by
  induction es with
  | nil => simp [readObjects]
  | cons e es ih =>
    obtain ⟨now, later⟩ := List.forall_mem_cons.mp types
    obtain ⟨small, others⟩ := List.forall_mem_cons.mp range
    have size : (formObj (numeric mode) e.oa e.type e.body).length = 6 + width mode type := by
      rw [length_formObj, now]
      rfl
    have addr : (formObj (numeric mode) e.oa e.type e.body ++ es.flatMap fun e =>
        formObj (numeric mode) e.oa e.type e.body).take 6 = addrHex (numeric mode) e.oa 3 := by
      rw [formObj, List.append_assoc]
      exact List.take_left' (length_address _)
    have element : ((formObj (numeric mode) e.oa e.type e.body ++ es.flatMap fun e =>
        formObj (numeric mode) e.oa e.type e.body).drop 6).take (width mode type) =
        iehex mode e.type e.body := by
      rw [formObj, List.append_assoc, List.drop_left' (length_address _), ← now]
      exact List.take_left' (length_iehex mode e.type e.body)
    rw [List.flatMap_cons, List.length_cons, readObjects,
      if_neg (by rw [List.length_append]; omega), List.drop_left' size, ih later others, addr,
      element, littleEndian_addrHex small.oa]
    rfl

theorem readRun_members {es : List (Entry Nat Body)} {addr : Nat}
    (types : ∀ e ∈ es, e.type = type) (run : es.map Entry.oa = List.range' addr es.length) :
    readRun (width mode type) addr es.length (es.flatMap fun e => iehex mode e.type e.body) =
      some (es.map fun e => (e.oa, iehex mode e.type e.body)) := by
  induction es generalizing addr with
  | nil => simp [readRun]
  | cons e es ih =>
    obtain ⟨now, later⟩ := List.forall_mem_cons.mp types
    rw [List.map_cons, List.length_cons, List.range'_succ, List.cons.injEq] at run
    obtain ⟨here, rest⟩ := run
    have size : (iehex mode e.type e.body).length = width mode type := by rw [length_iehex, now]
    rw [List.flatMap_cons, List.length_cons, readRun, if_neg (by rw [List.length_append]; omega),
      List.drop_left' size, List.take_left' size, ih later rest, ← here]
    rfl

end Parts

section Groups

variable {mode : FloatFunc}

/-- The members share the common address, and those of a run follow one another. -/
structure Sequential (g : Portion Nat Body) : Prop where
  station : ∀ e ∈ g.members, e.ca = g.first.ca
  run : g.sq = true ∨ g.rest = [] →
    g.members.map Entry.oa = List.range' g.first.oa g.count ∧ g.last.oa + 1 = g.first.oa + g.count

theorem sequential_start (e : Entry Nat Body) : Sequential ((division (numeric mode)).start e) := by
  refine ⟨?_, fun _ => ⟨rfl, rfl⟩⟩
  intro e' member
  obtain rfl := List.mem_singleton.mp member
  rfl

theorem sequential_grow {g g' : Portion Nat Body} {e : Entry Nat Body} (sequential : Sequential g)
    (grown : (division (numeric mode)).grow g e = some g') : Sequential g' := by
  obtain ⟨same, _, cases⟩ := division_grow grown
  have station (sq : Bool) : ∀ e' ∈ (Portion.mk g.first (g.rest ++ [e]) sq).members,
      e'.ca = g.first.ca := by
    rw [Portion.members_append]
    intro e' member
    rcases List.mem_append.mp member with old | new
    · exact sequential.station e' old
    · obtain rfl := List.mem_singleton.mp new
      simpa [numeric] using same
  rcases cases with ⟨_, follows, run, _, rfl⟩ | ⟨_, _, rfl⟩
  · obtain ⟨addresses, last⟩ := sequential.run run
    have next : e.oa = g.first.oa + g.count := by
      rw [← last]
      simpa [numeric] using follows
    have count : (Portion.mk g.first (g.rest ++ [e]) true).count = g.count + 1 := by
      rw [Portion.count, Portion.members_append, List.length_append]
      rfl
    have longer : List.range' g.first.oa (g.count + 1) =
        List.range' g.first.oa g.count ++ [g.first.oa + g.count] := by
      rw [List.range'_concat, Nat.one_mul]
    refine ⟨station true, fun _ => ⟨?_, ?_⟩⟩
    · rw [count, Portion.members_append, List.map_append, addresses, List.map_singleton, next]
      exact longer.symm
    · rw [count, Portion.last_append]
      change e.oa + 1 = g.first.oa + (g.count + 1)
      omega
  · refine ⟨station false, ?_⟩
    intro short
    simp at short

theorem readAsdu_group {g : Portion Nat Body} (uniform : g.Uniform) (sequential : Sequential g)
    (range : ∀ e ∈ g.members, InRange e) :
    readAsdu mode (g.vars (numeric mode)) = some (g.members.map (object mode)) := by
  have objects : (g.members.map fun e => (e.oa, iehex mode e.type e.body)).map
      (fun p => Object.mk g.first.ca g.first.type p.1 p.2) = g.members.map (object mode) := by
    rw [List.map_map]
    apply List.map_congr_left
    intro e member
    simp [object, sequential.station e member, uniform.types e member]
  by_cases run : g.sq = true
  · have data : (g.vars (numeric mode)).data = addrHex (numeric mode) g.first.oa 3 ++
        g.members.flatMap fun e => iehex mode e.type e.body := if_pos run
    have first := range g.first List.mem_cons_self
    simp only [readAsdu, vars_asduType, vars_asduAddr, vars_sq, vars_asduCount, run, if_true, data]
    rw [if_neg (by rw [List.length_append, length_address]; omega),
      List.take_left' (length_address _), List.drop_left' (length_address _),
      littleEndian_addrHex first.oa, Portion.count,
      readRun_members uniform.types (sequential.run (.inl run)).1, Option.map_some, objects]
  · have data : (g.vars (numeric mode)).data =
        g.members.flatMap fun e => formObj (numeric mode) e.oa e.type e.body := if_neg run
    simp only [readAsdu, vars_asduType, vars_asduAddr, vars_sq, vars_asduCount, run,
      Bool.false_eq_true, if_false, data]
    rw [Portion.count, readObjects_members uniform.types range, Option.map_some,
      objects]

private theorem mapM_some {α β : Type} {f : α → Option β} {h : α → β} {as : List α}
    (each : ∀ a ∈ as, f a = some (h a)) : as.mapM f = some (as.map h) := by
  induction as with
  | nil => rfl
  | cons a as ih =>
    obtain ⟨now, later⟩ := List.forall_mem_cons.mp each
    rw [List.mapM_cons, now, ih later]
    rfl

/-- For every file of records of the four types, the units handed to `print_asdu` can be read,
and their objects are the sorted records, each once and in order. -/
theorem asduconv_lossless {file : List (Entry Nat Body)} (some : file ≠ [])
    (range : ∀ e ∈ file, InRange e) :
    ((asduconv mode file).mapM (readPrinted mode)).map List.flatten =
      .some ((sortRecords file).map (object mode)) := by
  have nonempty : sortRecords file ≠ [] := by
    intro none
    have lengths := congrArg List.length none
    rw [sortRecords, List.length_mergeSort] at lengths
    exact some (List.length_eq_zero_iff.mp lengths)
  have records : ((sortRecords file).map Option.some).reduceOption = sortRecords file := by
    simp [List.reduceOption]
  have sequential : ∀ g ∈ (division (numeric mode)).groups (sortRecords file), Sequential g :=
    groups_forall (Q := fun _ => True) (fun e _ => sequential_start e)
      (fun _ _ _ sequential _ grown => sequential_grow sequential grown) fun _ _ => trivial
  have whole := division_members (F := numeric mode) (sortRecords file)
  have units : (asduconv mode file).mapM (readPrinted mode) =
      .some (((division (numeric mode)).groups (sortRecords file)).map fun g =>
        g.members.map (object mode)) := by
    rw [asduconv, transformAsdu_eq, records, if_neg nonempty, List.mapM_map]
    apply mapM_some
    intro g member
    apply readAsdu_group (groups_uniform _ g member) (sequential g member)
    intro e inside
    have sorted : e ∈ sortRecords file := by
      rw [← whole]
      exact List.mem_flatMap.mpr ⟨g, member, inside⟩
    exact range e (List.mem_mergeSort.mp sorted)
  rw [units, Option.map_some, ← List.flatMap_def, ← List.map_flatMap, whole]

/-- Two single points in sequence, one apart, and a point of another station. -/
def fourPoints : List (Entry Nat Body) :=
  let body : Body := ⟨['1'], [], ['N', 'T'], []⟩
  [⟨2, 7, .spNa, body⟩, ⟨1, 5, .spNa, body⟩, ⟨1, 9, .spNa, body⟩, ⟨1, 6, .spNa, body⟩]

theorem asduconv_lossless_fourPoints :
    ((asduconv .one fourPoints).mapM (readPrinted .one)).map List.flatten =
      some ((sortRecords fourPoints).map (object .one)) := by
  apply asduconv_lossless
  · exact List.cons_ne_nil _ _
  · intro e member
    simp only [fourPoints, List.mem_cons, List.not_mem_nil, or_false] at member
    rcases member with rfl | rfl | rfl | rfl <;> exact ⟨by decide, by decide⟩

end Groups

end IecUtils.Asdu.Readback
