/- Module: IecUtils/Asdu/Assembler
   source: transform_asdu of scripts/asduconv: the main rule, END, assemble_asdu, init_elem, print_asdu and form_obj
   digest: The awk program over any records, and the groups of records its lines stand for. -/

import IecUtils.Asdu.Encoding
import IecUtils.Foundation.Grouping
import Mathlib.Data.List.ReduceOption

set_option autoImplicit false
set_option relaxedAutoImplicit false

namespace IecUtils.Asdu.Assembler

open IecUtils.Foundation.Hex
open IecUtils.Foundation.Grouping
open IecUtils.Asdu.Encoding

section Program

/-- A record with one of the four types: `$1`, `$2`, `$3`, and the fields behind them. -/
structure Entry (φ β : Type) where
  ca : φ
  oa : φ
  type : AsduType
  body : β
  deriving DecidableEq

/-- What awk makes of the fields: the comparisons `$1 != ASDU_ADDR` and `$2 == OBJ_ADDR + 1`,
the conversion `%0*X`, which pads to its width, and the function `iehex`. -/
structure Fields (φ β : Type) where
  mode : FloatFunc
  differ : φ → φ → Bool
  follows : φ → φ → Bool
  format : Nat → φ → List Char
  pads : ∀ w v, w ≤ (format w v).length
  iehex : AsduType → β → List Char
  sized : ∀ type b, (iehex type b).length = width mode type

/-- The variables `init_elem` sets and `print_asdu` reads. -/
@[ext]
structure Vars (φ : Type) where
  asduType : AsduType
  asduCount : Nat
  asduAddr : φ
  objAddr : φ
  sq : Bool
  data : List Char
  deriving DecidableEq

/-- The variables, which are unset before the first `init_elem`; ASDU_TYPE equals 0 only then.
`printed` holds them as each call of `print_asdu` found them. -/
structure State (φ : Type) where
  vars : Option (Vars φ)
  numhr : Nat
  printed : List (Option (Vars φ))

variable {φ β : Type} (F : Fields φ β)

def addrHex (addr : φ) (nbyte : Nat) : List Char := strhex (F.format (2 * nbyte) addr) nbyte

def formObj (objaddr : φ) (asdutype : AsduType) (b : β) : List Char :=
  addrHex F objaddr 3 ++ F.iehex asdutype b

def initElem (e : Entry φ β) : Vars φ where
  asduType := e.type
  asduCount := 1
  asduAddr := e.ca
  objAddr := e.oa
  sq := false
  data := formObj F e.oa e.type e.body

/-- `print_asdu(); init_elem()`. -/
def printInit (nr : Nat) (e : Entry φ β) (s : State φ) : State φ where
  vars := some (initElem F e)
  numhr := nr
  printed := s.printed ++ [s.vars]

def maxData : Nat := 498

def assembleAsdu (nr : Nat) (e : Entry φ β) (v : Vars φ) (s : State φ) : State φ :=
  if e.type = .spTb ∨ e.type = .meTf then
    if v.data.length + (formObj F e.oa e.type e.body).length > maxData then printInit F nr e s
    else { s with vars := some { v with
      asduCount := v.asduCount + 1
      objAddr := e.oa
      data := v.data ++ formObj F e.oa e.type e.body } }
  else if v.data.length + (F.iehex e.type e.body).length > maxData then printInit F nr e s
  else if F.follows e.oa v.objAddr = true then
    if v.sq = false ∧ v.asduCount = 1 then
      { s with vars := some { v with
        sq := true
        asduCount := v.asduCount + 1
        objAddr := e.oa
        data := v.data ++ F.iehex e.type e.body } }
    else if v.sq = true then
      { s with vars := some { v with
        asduCount := v.asduCount + 1
        objAddr := e.oa
        data := v.data ++ F.iehex e.type e.body } }
    else if v.sq = false ∧ v.asduCount > 1 then printInit F nr e s
    else s
  else if v.data.length + (formObj F e.oa e.type e.body).length > maxData then printInit F nr e s
  else if v.sq = false then
    { s with vars := some { v with
      asduCount := v.asduCount + 1
      objAddr := e.oa
      data := v.data ++ formObj F e.oa e.type e.body } }
  else printInit F nr e s

/-- The main rule on record number `nr`; a record of another type is passed over. -/
def mainRule (nr : Nat) (line : Option (Entry φ β)) (s : State φ) : State φ :=
  match line with
  | none => s
  | some e =>
      match s.vars with
      | none => { s with vars := some (initElem F e), numhr := nr }
      | some v =>
          if F.differ e.ca v.asduAddr = true then printInit F nr e s
          else if e.type ≠ v.asduType then printInit F nr e s
          else if s.numhr < nr then assembleAsdu F nr e v s
          else s

def mainRules : Nat → List (Option (Entry φ β)) → State φ → State φ
  | _, [], s => s
  | nr, line :: lines, s => mainRules (nr + 1) lines (mainRule F nr line s)

/-- What the calls of `print_asdu` find, the one of END included. -/
def transformAsdu (lines : List (Option (Entry φ β))) : List (Option (Vars φ)) :=
  let s := mainRules F 1 lines ⟨none, 0, []⟩
  s.printed ++ [s.vars]

/-- The line `print_asdu` prints; an unset variable is 0. -/
def asduHex (cot : Int) : Option (Vars φ) → List Char
  | none => int2hex 0 1 ++ int2hex 0 1 ++ int2hex cot 2 ++ int2hex 0 2
  | some v =>
      int2hex v.asduType.code 1 ++ int2hex ((if v.sq then 1 else 0) * 128 + v.asduCount) 1 ++
        int2hex cot 2 ++ addrHex F v.asduAddr 2 ++ v.data

end Program

section Groups

variable {φ β : Type} (F : Fields φ β)

/-- Records that share a line: a run with one address, or objects with an address each. -/
structure Portion (φ β : Type) where
  first : Entry φ β
  rest : List (Entry φ β)
  sq : Bool

def Portion.members (g : Portion φ β) : List (Entry φ β) := g.first :: g.rest

def Portion.count (g : Portion φ β) : Nat := g.members.length

def Portion.last (g : Portion φ β) : Entry φ β := g.rest.getLastD g.first

def Portion.size (mode : FloatFunc) (g : Portion φ β) : Nat :=
  if g.sq then 6 + g.count * width mode g.first.type
  else g.count * (6 + width mode g.first.type)

def AsduType.timed : AsduType → Bool
  | .spTb | .meTf => true
  | .spNa | .meNc => false

/-- A group takes a record of its station and type if there is room: with a time tag always,
without one either in sequence, if the group is a run or has only one member yet, or out of
sequence, if it is not a run. -/
def division : Rule (Entry φ β) (Portion φ β) where
  start e := ⟨e, [], false⟩
  grow g e :=
    if F.differ e.ca g.first.ca = true ∨ e.type ≠ g.first.type then none
    else if AsduType.timed e.type = false ∧ F.follows e.oa g.last.oa = true then
      if (g.sq = true ∨ g.rest = []) ∧ g.size F.mode + width F.mode e.type ≤ maxData then
        some ⟨g.first, g.rest ++ [e], true⟩
      else none
    else if g.sq = false ∧ g.size F.mode + (6 + width F.mode e.type) ≤ maxData then
      some ⟨g.first, g.rest ++ [e], false⟩
    else none

def Portion.vars (g : Portion φ β) : Vars φ where
  asduType := g.first.type
  asduCount := g.count
  asduAddr := g.first.ca
  objAddr := g.last.oa
  sq := g.sq
  data :=
    if g.sq then addrHex F g.first.oa 3 ++ g.members.flatMap fun e => F.iehex e.type e.body
    else g.members.flatMap fun e => formObj F e.oa e.type e.body

/-- What the branches of `assemble_asdu` that extend the variables make of them. -/
def machine : Rule (Entry φ β) (Vars φ) where
  start := initElem F
  grow v e :=
    if F.differ e.ca v.asduAddr = true ∨ e.type ≠ v.asduType then none
    else if AsduType.timed e.type = false ∧ F.follows e.oa v.objAddr = true then
      if (v.sq = true ∨ v.asduCount = 1) ∧ v.data.length + width F.mode e.type ≤ maxData then
        some { v with
          sq := true
          asduCount := v.asduCount + 1
          objAddr := e.oa
          data := v.data ++ F.iehex e.type e.body }
      else none
    else if (AsduType.timed e.type = true ∨ v.sq = false) ∧
        v.data.length + (6 + width F.mode e.type) ≤ maxData then
      some { v with
        asduCount := v.asduCount + 1
        objAddr := e.oa
        data := v.data ++ formObj F e.oa e.type e.body }
    else none

@[simp] theorem length_addrHex (addr : φ) (nbyte : Nat) :
    (addrHex F addr nbyte).length = 2 * nbyte := by
  rw [addrHex, strhex_eq, length_reversePairs (F.pads _ _)]

@[simp] theorem length_formObj (oa : φ) (type : AsduType) (b : β) :
    (formObj F oa type b).length = 6 + width F.mode type := by
  rw [formObj, List.length_append, length_addrHex, F.sized]

variable {F}

theorem timed_iff (type : AsduType) :
    type = .spTb ∨ type = .meTf ↔ AsduType.timed type = true := by
  cases type <;> simp [AsduType.timed]

theorem assembleAsdu_grow {nr : Nat} {e : Entry φ β} {v : Vars φ} {s : State φ}
    (same : F.differ e.ca v.asduAddr = false) (type : e.type = v.asduType)
    (some : 1 ≤ v.asduCount) :
    assembleAsdu F nr e v s =
      match (machine F).grow v e with
      | .some v' => { s with vars := .some v' }
      | none => printInit F nr e s := by
  unfold assembleAsdu machine
  simp only [timed_iff, same, type, length_formObj, F.sized, gt_iff_lt, ne_eq, not_true_eq_false,
    Bool.false_eq_true, or_false, if_false]
  by_cases timed : AsduType.timed v.asduType = true
  · by_cases room : v.data.length + (6 + width F.mode v.asduType) ≤ maxData
    · simp [timed, room, Nat.not_lt.mpr room]
    · simp [timed, room, Nat.not_le.mp room]
  · by_cases follows : F.follows e.oa v.objAddr = true
    · by_cases room : v.data.length + width F.mode v.asduType ≤ maxData
      · by_cases run : v.sq = true
        · simp [timed, follows, room, Nat.not_lt.mpr room, run]
        · by_cases single : v.asduCount = 1
          · simp [timed, follows, room, Nat.not_lt.mpr room, run, single]
          · have more : 1 < v.asduCount := by omega
            simp [timed, follows, Nat.not_lt.mpr room, run, single, more]
      · simp [timed, follows, room, Nat.not_le.mp room]
    · by_cases room : v.data.length + (6 + width F.mode v.asduType) ≤ maxData
      · have less : ¬ maxData < v.data.length + width F.mode v.asduType := by omega
        by_cases run : v.sq = true
        · simp [timed, follows, Nat.not_lt.mpr room, run, less]
        · simp [timed, follows, room, Nat.not_lt.mpr room, run, less]
      · simp [timed, follows, room, Nat.not_le.mp room]

theorem mainRule_grow {nr : Nat} {e : Entry φ β} {v : Vars φ} {s : State φ} (set : s.vars = some v)
    (later : s.numhr < nr) (some : 1 ≤ v.asduCount) :
    mainRule F nr (.some e) s =
      match (machine F).grow v e with
      | .some v' => { s with vars := .some v' }
      | none => printInit F nr e s := by
  unfold mainRule
  simp only [set]
  by_cases other : F.differ e.ca v.asduAddr = true
  · simp [machine, other]
  by_cases type : e.type = v.asduType
  · rw [if_neg other, if_neg (not_not.mpr type), if_pos later]
    exact assembleAsdu_grow ((Bool.not_eq_true _).mp other) type some
  · simp [machine, other, type]

theorem machine_count {v v' : Vars φ} {e : Entry φ β} (grown : (machine F).grow v e = some v') :
    v'.asduCount = v.asduCount + 1 := by
  unfold machine at grown
  dsimp only at grown
  split_ifs at grown <;> exact (congrArg Vars.asduCount (Option.some.inj grown)).symm

theorem mainRules_groups (lines : List (Option (Entry φ β))) {nr : Nat} {v : Vars φ} {s : State φ}
    (set : s.vars = some v) (later : s.numhr < nr) (some : 1 ≤ v.asduCount) :
    (mainRules F nr lines s).printed ++ [(mainRules F nr lines s).vars] =
      s.printed ++ ((machine F).groupsFrom v lines.reduceOption).map .some := by
  induction lines generalizing nr v s with
  | nil => simp [mainRules, Rule.groupsFrom, set]
  | cons line lines ih =>
    rw [mainRules]
    cases line with
    | none =>
      rw [List.reduceOption_cons_of_none]
      exact ih (s := s) set (by omega) some
    | some e =>
      rw [List.reduceOption_cons_of_some, mainRule_grow set later some, Rule.groupsFrom]
      cases grown : (machine F).grow v e with
      | some v' =>
        have count := machine_count grown
        exact ih rfl (by simpa using Nat.lt_succ_of_lt later) (by omega)
      | none =>
        dsimp only
        rw [ih (v := initElem F e) rfl (Nat.lt_succ_self nr) le_rfl]
        simp [printInit, set, machine]

theorem transformAsdu_machine (lines : List (Option (Entry φ β))) :
    transformAsdu F lines =
      if lines.reduceOption = [] then [none]
      else ((machine F).groups lines.reduceOption).map .some := by
  have general (nr : Nat) : ∀ numhr, numhr < nr →
      (mainRules F nr lines ⟨none, numhr, []⟩).printed ++
          [(mainRules F nr lines ⟨none, numhr, []⟩).vars] =
        if lines.reduceOption = [] then [none]
        else ((machine F).groups lines.reduceOption).map .some := by
    induction lines generalizing nr with
    | nil => exact fun numhr later => rfl
    | cons line lines ih =>
      intro numhr later
      rw [mainRules]
      cases line with
      | none =>
        rw [List.reduceOption_cons_of_none]
        exact ih (nr + 1) numhr (by omega)
      | some e =>
        rw [List.reduceOption_cons_of_some, if_neg (List.cons_ne_nil _ _), Rule.groups]
        exact mainRules_groups lines rfl (Nat.lt_succ_self nr) le_rfl
  exact general 1 0 Nat.zero_lt_one

/-- The members share the type, and a run has more than one and no time tags. -/
structure Portion.Uniform (g : Portion φ β) : Prop where
  types : ∀ e ∈ g.members, e.type = g.first.type
  run : g.sq = true → g.rest ≠ [] ∧ AsduType.timed g.first.type = false

theorem Portion.last_append (g : Portion φ β) (e : Entry φ β) (sq : Bool) :
    (Portion.mk g.first (g.rest ++ [e]) sq).last = e := by
  simp [Portion.last]

theorem Portion.members_append (g : Portion φ β) (e : Entry φ β) (sq : Bool) :
    (Portion.mk g.first (g.rest ++ [e]) sq).members = g.members ++ [e] := by
  simp [Portion.members]

theorem division_grow {g g' : Portion φ β} {e : Entry φ β}
    (grown : (division F).grow g e = some g') :
    F.differ e.ca g.first.ca = false ∧ e.type = g.first.type ∧
      ((AsduType.timed e.type = false ∧ F.follows e.oa g.last.oa = true ∧
          (g.sq = true ∨ g.rest = []) ∧ g.size F.mode + width F.mode e.type ≤ maxData ∧
          g' = ⟨g.first, g.rest ++ [e], true⟩) ∨
        (g.sq = false ∧ g.size F.mode + (6 + width F.mode e.type) ≤ maxData ∧
          g' = ⟨g.first, g.rest ++ [e], false⟩)) := by
  unfold division at grown
  dsimp only at grown
  split_ifs at grown with other sequence run room
  · obtain ⟨same, type⟩ := not_or.mp other
    exact ⟨by simpa using same, not_not.mp type,
      .inl ⟨sequence.1, sequence.2, run.1, run.2, (Option.some.inj grown).symm⟩⟩
  · obtain ⟨same, type⟩ := not_or.mp other
    exact ⟨by simpa using same, not_not.mp type,
      .inr ⟨room.1, room.2, (Option.some.inj grown).symm⟩⟩

theorem uniform_start (e : Entry φ β) : ((division F).start e).Uniform := by
  refine ⟨?_, nofun⟩
  intro e' member
  obtain rfl := List.mem_singleton.mp member
  rfl

theorem uniform_grow {g g' : Portion φ β} {e : Entry φ β} (uniform : g.Uniform)
    (grown : (division F).grow g e = some g') : g'.Uniform := by
  obtain ⟨_, type, cases⟩ := division_grow grown
  have types (sq : Bool) : ∀ e' ∈ (Portion.mk g.first (g.rest ++ [e]) sq).members,
      e'.type = g.first.type := by
    rw [Portion.members_append]
    intro e' member
    rcases List.mem_append.mp member with old | new
    · exact uniform.types e' old
    · obtain rfl := List.mem_singleton.mp new
      exact type
  rcases cases with ⟨untimed, _, _, _, rfl⟩ | ⟨_, _, rfl⟩
  · exact ⟨types true, fun _ => ⟨by simp, type ▸ untimed⟩⟩
  · exact ⟨types false, nofun⟩

private theorem length_flatMap_const {es : List (Entry φ β)} {f : Entry φ β → List Char} {n : Nat}
    (each : ∀ e ∈ es, (f e).length = n) : (es.flatMap f).length = es.length * n := by
  induction es with
  | nil => simp
  | cons e es ih =>
    obtain ⟨now, later⟩ := List.forall_mem_cons.mp each
    rw [List.flatMap_cons, List.length_append, now, ih later, List.length_cons, Nat.add_mul]
    omega

theorem length_data {g : Portion φ β} (uniform : g.Uniform) :
    (g.vars F).data.length = g.size F.mode := by
  have elements : (g.members.flatMap fun e => F.iehex e.type e.body).length =
      g.count * width F.mode g.first.type := by
    apply length_flatMap_const
    intro e member
    rw [F.sized, uniform.types e member]
  have objects : (g.members.flatMap fun e => formObj F e.oa e.type e.body).length =
      g.count * (6 + width F.mode g.first.type) := by
    apply length_flatMap_const
    intro e member
    rw [length_formObj, uniform.types e member]
  unfold Portion.vars Portion.size
  dsimp only
  split
  · rw [List.length_append, length_addrHex, elements]
  · exact objects

theorem vars_run {g : Portion φ β} (e : Entry φ β) (run : g.sq = true ∨ g.rest = []) :
    (Portion.mk g.first (g.rest ++ [e]) true).vars F =
      { g.vars F with
        sq := true
        asduCount := (g.vars F).asduCount + 1
        objAddr := e.oa
        data := (g.vars F).data ++ F.iehex e.type e.body } := by
  have count : (Portion.mk g.first (g.rest ++ [e]) true).count = g.count + 1 := by
    rw [Portion.count, Portion.members_append, List.length_append]
    rfl
  have data : ((Portion.mk g.first (g.rest ++ [e]) true).vars F).data =
      (g.vars F).data ++ F.iehex e.type e.body := by
    unfold Portion.vars
    dsimp only
    rw [if_pos rfl, Portion.members_append, List.flatMap_append, ← List.append_assoc]
    by_cases sq : g.sq = true
    · rw [if_pos sq]
      simp
    · rw [if_neg sq, Portion.members, run.resolve_left sq]
      simp [formObj]
  have last := congrArg Entry.oa (Portion.last_append g e true)
  apply Vars.ext
  · rfl
  · exact count
  · rfl
  · exact last
  · rfl
  · exact data

theorem vars_object {g : Portion φ β} (e : Entry φ β) (plain : g.sq = false) :
    (Portion.mk g.first (g.rest ++ [e]) false).vars F =
      { g.vars F with
        asduCount := (g.vars F).asduCount + 1
        objAddr := e.oa
        data := (g.vars F).data ++ formObj F e.oa e.type e.body } := by
  have count : (Portion.mk g.first (g.rest ++ [e]) false).count = g.count + 1 := by
    rw [Portion.count, Portion.members_append, List.length_append]
    rfl
  have data : ((Portion.mk g.first (g.rest ++ [e]) false).vars F).data =
      (g.vars F).data ++ formObj F e.oa e.type e.body := by
    unfold Portion.vars
    dsimp only
    rw [if_neg Bool.false_ne_true, plain, if_neg Bool.false_ne_true, Portion.members_append,
      List.flatMap_append]
    simp
  have last := congrArg Entry.oa (Portion.last_append g e false)
  apply Vars.ext
  · rfl
  · exact count
  · rfl
  · exact last
  · exact plain.symm
  · exact data

@[simp] theorem vars_asduType (g : Portion φ β) : (g.vars F).asduType = g.first.type := rfl
@[simp] theorem vars_asduAddr (g : Portion φ β) : (g.vars F).asduAddr = g.first.ca := rfl
@[simp] theorem vars_objAddr (g : Portion φ β) : (g.vars F).objAddr = g.last.oa := rfl
@[simp] theorem vars_sq (g : Portion φ β) : (g.vars F).sq = g.sq := rfl
@[simp] theorem vars_asduCount (g : Portion φ β) : (g.vars F).asduCount = g.count := rfl

theorem machine_division {g : Portion φ β} (uniform : g.Uniform) (e : Entry φ β) :
    (machine F).grow (g.vars F) e = ((division F).grow g e).map (Portion.vars F) := by
  have length := length_data (F := F) uniform
  have single : g.count = 1 ↔ g.rest = [] := by simp [Portion.count, Portion.members]
  unfold machine division
  simp only [vars_asduType, vars_asduAddr, vars_objAddr, vars_sq, vars_asduCount, length, single]
  by_cases other : F.differ e.ca g.first.ca = true ∨ e.type ≠ g.first.type
  · rw [if_pos other, if_pos other, Option.map_none]
  · rw [if_neg other, if_neg other]
    by_cases sequence : AsduType.timed e.type = false ∧ F.follows e.oa g.last.oa = true
    · rw [if_pos sequence, if_pos sequence]
      by_cases room : (g.sq = true ∨ g.rest = []) ∧ g.size F.mode + width F.mode e.type ≤ maxData
      · rw [if_pos room, if_pos room, Option.map_some, vars_run e room.1]
        rfl
      · rw [if_neg room, if_neg room, Option.map_none]
    · have plain : AsduType.timed e.type = true ∨ g.sq = false ↔ g.sq = false := by
        apply or_iff_right_of_imp
        intro timed
        by_contra run
        have untimed := (uniform.run ((Bool.not_eq_false _).mp run)).2
        rw [← not_not.mp (not_or.mp other).2, timed] at untimed
        cases untimed
      rw [if_neg sequence, if_neg sequence]
      simp only [plain]
      by_cases room : g.sq = false ∧ g.size F.mode + (6 + width F.mode e.type) ≤ maxData
      · rw [if_pos room, if_pos room, Option.map_some, vars_object e room.1]
        rfl
      · rw [if_neg room, if_neg room, Option.map_none]

/-- What `print_asdu` finds are the groups of the division; without a record of the four types
it is called once on variables that are not set. -/
theorem transformAsdu_eq (lines : List (Option (Entry φ β))) :
    transformAsdu F lines =
      if lines.reduceOption = [] then [none]
      else ((division F).groups lines.reduceOption).map fun g => some (g.vars F) := by
  have first (e : Entry φ β) : ((division F).start e).vars F = (machine F).start e := by
    simp [division, machine, initElem, Portion.vars, Portion.count, Portion.last, Portion.members]
  have groups := groups_map (P := Portion.Uniform) first uniform_start
    (fun g e g' => uniform_grow) (fun g e uniform => machine_division uniform e)
    lines.reduceOption
  rw [transformAsdu_machine, ← groups, List.map_map]
  rfl

/-- The groups are uniform, their members are the records in order, and DATA keeps to its
bound. -/
theorem groups_uniform (es : List (Entry φ β)) : ∀ g ∈ (division F).groups es, g.Uniform :=
  groups_forall (Q := fun _ => True) (fun e _ => uniform_start e)
    (fun _ _ _ uniform _ grown => uniform_grow uniform grown) fun _ _ => trivial

theorem division_members (es : List (Entry φ β)) :
    ((division F).groups es).flatMap Portion.members = es := by
  refine groups_members Portion.members (fun e => rfl) ?_ es
  intro g e g' grown
  obtain ⟨_, _, ⟨_, _, _, _, rfl⟩ | ⟨_, _, rfl⟩⟩ := division_grow grown
  · exact Portion.members_append g e true
  · exact Portion.members_append g e false

theorem division_size {g g' : Portion φ β} {e : Entry φ β}
    (grown : (division F).grow g e = some g') :
    g'.size F.mode ≤ maxData := by
  obtain ⟨_, type, ⟨_, _, run, room, rfl⟩ | ⟨plain, room, rfl⟩⟩ := division_grow grown
  · unfold Portion.size at room ⊢
    dsimp only at room ⊢
    rw [type] at room
    rw [if_pos rfl, Portion.count, Portion.members_append, List.length_append,
      List.length_singleton, Nat.add_mul]
    by_cases sq : g.sq = true
    · rw [if_pos sq, Portion.count] at room
      omega
    · have single : g.members.length = 1 := by rw [Portion.members, run.resolve_left sq]; rfl
      rw [if_neg sq, Portion.count, single] at room
      rw [single]
      omega
  · unfold Portion.size at room ⊢
    dsimp only at room ⊢
    rw [plain, if_neg Bool.false_ne_true, type, Portion.count] at room
    rw [if_neg Bool.false_ne_true, Portion.count, Portion.members_append, List.length_append,
      List.length_singleton, Nat.add_mul, Nat.one_mul]
    exact room

theorem width_bounds (mode : FloatFunc) (type : AsduType) :
    2 ≤ width mode type ∧ width mode type ≤ 24 := by
  cases type <;> cases mode <;> decide

theorem groups_size (es : List (Entry φ β)) :
    ∀ g ∈ (division F).groups es, g.size F.mode ≤ maxData := by
  refine groups_forall (Q := fun _ => True) ?_ (fun _ _ _ _ _ grown => division_size grown)
    fun _ _ => trivial
  intro e _
  obtain ⟨_, most⟩ := width_bounds F.mode e.type
  change 1 * (6 + width F.mode e.type) ≤ 498
  omega

end Groups

end IecUtils.Asdu.Assembler
