/- Module: IecUtils/Foundation/Transition
   source: none (general theory of partial step functions)
   digest: Invariants of step functions carry over to whole runs, with or without a guard on the steps. -/

import Mathlib.Data.List.Basic

set_option autoImplicit false
set_option relaxedAutoImplicit false

namespace IecUtils.Foundation.Transition

universe u v

variable {σ : Type u} {ε : Type v} {step : σ → ε → Option σ}

/-- Follow the events in order; a step that is not enabled ends the run with `none`. -/
def run (step : σ → ε → Option σ) : σ → List ε → Option σ
  | s, [] => some s
  | s, e :: es => (step s e).bind fun t => run step t es

/-- Every step the events take meets the condition `C` on the state before it. -/
def Guarded (step : σ → ε → Option σ) (C : σ → ε → Prop) : σ → List ε → Prop
  | _, [] => True
  | s, e :: es => C s e ∧ ∀ t, step s e = some t → Guarded step C t es

instance decidableGuarded {C : σ → ε → Prop} [∀ s e, Decidable (C s e)] :
    ∀ (s : σ) (es : List ε), Decidable (Guarded step C s es)
  | _, [] => isTrue trivial
  | s, e :: es =>
      have later : Decidable (∀ t, step s e = some t → Guarded step C t es) :=
        match step s e with
        | none => isTrue fun _ impossible => nomatch impossible
        | some t =>
            have : Decidable (Guarded step C t es) := decidableGuarded t es
            decidable_of_iff (Guarded step C t es) (by simp)
      inferInstanceAs (Decidable (_ ∧ _))

@[simp] theorem run_nil (s : σ) : run step s [] = some s := rfl

@[simp] theorem run_cons (s : σ) (e : ε) (es : List ε) :
    run step s (e :: es) = (step s e).bind fun t => run step t es := rfl

theorem run_append (s : σ) (es fs : List ε) :
    run step s (es ++ fs) = (run step s es).bind fun t => run step t fs := by
  induction es generalizing s with
  | nil => rfl
  | cons e es ih =>
    cases hs : step s e with
    | none => simp [hs]
    | some t => simpa [hs] using ih t

theorem guarded_append {C : σ → ε → Prop} {s t : σ} {es fs : List ε}
    (first : Guarded step C s es) (reached : run step s es = some t)
    (second : Guarded step C t fs) : Guarded step C s (es ++ fs) := by
  induction es generalizing s with
  | nil =>
    obtain rfl := Option.some.inj reached
    exact second
  | cons e es ih =>
    refine ⟨first.1, ?_⟩
    intro m taken
    refine ih (first.2 m taken) ?_
    rw [run_cons, taken] at reached
    exact reached

def Reaches (step : σ → ε → Option σ) (C : σ → ε → Prop) (s t : σ) : Prop :=
  ∃ es, Guarded step C s es ∧ run step s es = some t

theorem Reaches.one {C : σ → ε → Prop} {s t : σ} {e : ε} (meets : C s e)
    (taken : step s e = some t) : Reaches step C s t := by
  refine ⟨[e], ⟨meets, fun _ _ => trivial⟩, ?_⟩
  rw [run_cons, taken]
  rfl

theorem Reaches.trans {C : σ → ε → Prop} {s t u : σ} (first : Reaches step C s t)
    (second : Reaches step C t u) : Reaches step C s u := by
  obtain ⟨es, meets, reached⟩ := first
  obtain ⟨fs, meets', reached'⟩ := second
  refine ⟨es ++ fs, guarded_append meets reached meets', ?_⟩
  rw [run_append, reached]
  exact reached'

theorem guarded_invariant {C : σ → ε → Prop} {I : σ → Prop}
    (keeps : ∀ s e t, I s → C s e → step s e = some t → I t)
    {s t : σ} {es : List ε} (start : I s) (meets : Guarded step C s es)
    (reached : run step s es = some t) : I t := by
  induction es generalizing s with
  | nil =>
    obtain rfl := Option.some.inj reached
    exact start
  | cons e es ih =>
    obtain ⟨m, first, rest⟩ := Option.bind_eq_some_iff.mp reached
    exact ih (keeps s e m start meets.1 first) (meets.2 m first) rest

theorem guarded_of_forall {C : σ → ε → Prop} (always : ∀ s e, C s e) (s : σ) (es : List ε) :
    Guarded step C s es := by
  induction es generalizing s with
  | nil => trivial
  | cons e es ih => exact ⟨always s e, fun t _ => ih t⟩

theorem guarded_of_mem {D : ε → Prop} {es : List ε} (all : ∀ e ∈ es, D e) (s : σ) :
    Guarded step (fun _ e => D e) s es := by
  induction es generalizing s with
  | nil => trivial
  | cons e es ih =>
    obtain ⟨now, later⟩ := List.forall_mem_cons.mp all
    exact ⟨now, fun t _ => ih later t⟩

theorem guarded_imp {C D : σ → ε → Prop} (weaker : ∀ s e, C s e → D s e) {s : σ} {es : List ε}
    (meets : Guarded step C s es) : Guarded step D s es := by
  induction es generalizing s with
  | nil => trivial
  | cons e es ih => exact ⟨weaker s e meets.1, fun t taken => ih (meets.2 t taken)⟩

theorem guarded_of_invariant {C D : σ → ε → Prop} {I : σ → Prop}
    (keeps : ∀ s e t, I s → step s e = some t → I t) (holds : ∀ s e, I s → C s e → D s e) {s : σ}
    {es : List ε} (start : I s) (meets : Guarded step C s es) : Guarded step D s es := by
  induction es generalizing s with
  | nil => trivial
  | cons e es ih =>
    refine ⟨holds s e start meets.1, fun t taken => ?_⟩
    exact ih (keeps s e t start taken) (meets.2 t taken)

theorem guarded_last {C : σ → ε → Prop} {s t : σ} {es : List ε} {e : ε}
    (meets : Guarded step C s (es ++ [e])) (reached : run step s es = some t) : C t e := by
  induction es generalizing s with
  | nil =>
    obtain rfl := Option.some.inj reached
    exact meets.1
  | cons f es ih =>
    obtain ⟨m, first, rest⟩ := Option.bind_eq_some_iff.mp reached
    exact ih (meets.2 m first) rest

theorem run_invariant {I : σ → Prop}
    (keeps : ∀ s e t, I s → step s e = some t → I t)
    {s t : σ} {es : List ε} (start : I s) (reached : run step s es = some t) : I t := by
  have meets : Guarded step (fun _ _ => True) s es := guarded_of_forall (fun _ _ => trivial) s es
  exact guarded_invariant (fun s e t inv _ taken => keeps s e t inv taken) start meets reached

theorem Reaches.invariant {C : σ → ε → Prop} {I : σ → Prop}
    (keeps : ∀ s e t, I s → C s e → step s e = some t → I t) {s t : σ} (start : I s)
    (reached : Reaches step C s t) : I t := by
  obtain ⟨es, meets, taken⟩ := reached
  exact guarded_invariant keeps start meets taken

universe w

variable {α : Type w}

def observe (step : σ → ε → Option σ) (seen : σ → ε → List α) : σ → List ε → List α
  | _, [] => []
  | s, e :: es => (step s e).elim [] fun t => seen s e ++ observe step seen t es

/-- What every guarded step keeps of the state and of all that was seen before, every
guarded run keeps. -/
theorem guarded_history {C : σ → ε → Prop} {seen : σ → ε → List α} {J : σ → List α → Prop}
    (keeps : ∀ s e t past, J s past → C s e → step s e = some t → J t (past ++ seen s e))
    {s t : σ} {es : List ε} {past : List α} (start : J s past) (meets : Guarded step C s es)
    (reached : run step s es = some t) : J t (past ++ observe step seen s es) := by
  induction es generalizing s past with
  | nil =>
    obtain rfl := Option.some.inj reached
    rw [observe, List.append_nil]
    exact start
  | cons e es ih =>
    obtain ⟨m, first, rest⟩ := Option.bind_eq_some_iff.mp reached
    rw [observe, first, Option.elim_some, ← List.append_assoc]
    exact ih (keeps s e m past start meets.1 first) (meets.2 m first) rest

theorem run_history {seen : σ → ε → List α} {J : σ → List α → Prop}
    (keeps : ∀ s e t past, J s past → step s e = some t → J t (past ++ seen s e))
    {s t : σ} {es : List ε} (start : J s []) (reached : run step s es = some t) :
    J t (observe step seen s es) := by
  have meets : Guarded step (fun _ _ => True) s es := guarded_of_forall (fun _ _ => trivial) s es
  have history := guarded_history (fun s e t past inv _ taken => keeps s e t past inv taken)
    start meets reached
  rwa [List.nil_append] at history

end IecUtils.Foundation.Transition
