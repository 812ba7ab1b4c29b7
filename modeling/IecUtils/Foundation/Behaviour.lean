/- Module: IecUtils/Foundation/Behaviour
   source: none (general theory of endless behaviours of partial step functions)
   digest: Behaviours in which helpful events do not fail to come reach their goal. -/

import IecUtils.Foundation.Transition

set_option autoImplicit false
set_option relaxedAutoImplicit false

namespace IecUtils.Foundation.Behaviour

open IecUtils.Foundation.Transition

universe u v

variable {σ : Type u} {ε : Type v} {step : σ → ε → Option σ} {ended : σ → Prop}
  {tr : Nat → σ} {ev : Nat → ε}

/-- The states `tr` follow the events `ev` until one of them has ended, and stay there. -/
structure Behaves (step : σ → ε → Option σ) (ended : σ → Prop) (tr : Nat → σ) (ev : Nat → ε) :
    Prop where
  moves : ∀ k, ¬ ended (tr k) → step (tr k) (ev k) = some (tr (k + 1))
  stays : ∀ k, ended (tr k) → tr (k + 1) = tr k

theorem Behaves.invariant {C : σ → ε → Prop} {I : σ → Prop} (h : Behaves step ended tr ev)
    (keeps : ∀ s e t, I s → ¬ ended s → C s e → step s e = some t → I t) (start : I (tr 0))
    (meets : ∀ k, ¬ ended (tr k) → C (tr k) (ev k)) (k : Nat) : I (tr k) := by
  induction k with
  | zero => exact start
  | succ k ih =>
    by_cases here : ended (tr k)
    · rw [h.stays k here]
      exact ih
    · exact keeps _ _ _ ih here (meets k here) (h.moves k here)

/-- Wherever `P` holds, `Q` holds then or later. -/
def LeadsTo (tr : Nat → σ) (P Q : σ → Prop) : Prop := ∀ k, P (tr k) → ∃ l, k ≤ l ∧ Q (tr l)

section Rules

variable {P Q R : σ → Prop}

theorem LeadsTo.trans (first : LeadsTo tr P fun s => R s ∨ Q s) (second : LeadsTo tr Q R) :
    LeadsTo tr P R := by
  intro k here
  obtain ⟨l, later, there⟩ := first k here
  rcases there with done | between
  · exact ⟨l, later, done⟩
  · obtain ⟨n, last, done⟩ := second l between
    exact ⟨n, Nat.le_trans later last, done⟩

/-- `P` stays until the goal is reached, a helpful event reaches it, and one comes as long
as `P` holds. -/
theorem leadsTo_of_helpful (ev : Nat → ε) {H : ε → Prop}
    (stays : ∀ k, P (tr k) → P (tr (k + 1)) ∨ Q (tr (k + 1)))
    (helps : ∀ k, P (tr k) → H (ev k) → Q (tr (k + 1)))
    (comes : ∀ k, P (tr k) → ∃ l, k ≤ l ∧ (Q (tr l) ∨ H (ev l))) : LeadsTo tr P Q := by
  intro k here
  have along (n : Nat) : P (tr (k + n)) ∨ ∃ l, k ≤ l ∧ Q (tr l) := by
    induction n with
    | zero => exact .inl here
    | succ n ih =>
      rcases ih with still | reached
      · rcases stays (k + n) still with next | done
        · exact .inl next
        · exact .inr ⟨k + n + 1, by omega, done⟩
      · exact .inr reached
  obtain ⟨l, later, done | helpful⟩ := comes k here
  · exact ⟨l, later, done⟩
  · obtain ⟨n, rfl⟩ := Nat.exists_eq_add_of_le later
    rcases along n with still | reached
    · exact ⟨k + n + 1, by omega, helps (k + n) still helpful⟩
    · exact reached

theorem reaches_of_measure (μ : σ → Nat)
    (lowers : ∀ n, LeadsTo tr (fun s => μ s = n) fun s => Q s ∨ μ s < n) (k : Nat) :
    ∃ l, k ≤ l ∧ Q (tr l) := by
  have bounded (n : Nat) : ∀ k, μ (tr k) = n → ∃ l, k ≤ l ∧ Q (tr l) := by
    induction n using Nat.strongRecOn with
    | ind n ih =>
      intro k measured
      obtain ⟨l, later, done | less⟩ := lowers n k measured
      · exact ⟨l, later, done⟩
      · obtain ⟨j, last, done⟩ := ih (μ (tr l)) less l rfl
        exact ⟨j, Nat.le_trans later last, done⟩
  exact bounded (μ (tr k)) k rfl

end Rules

def trace (step : σ → ε → Option σ) : σ → List ε → Nat → σ
  | s, _, 0 => s
  | s, [], _ + 1 => s
  | s, e :: es, k + 1 => (step s e).elim s fun t => trace step t es k

theorem trace_nil (s : σ) (k : Nat) : trace step s ([] : List ε) k = s := by
  cases k with
  | zero => rfl
  | succ k => rfl

theorem trace_end {s t : σ} {es : List ε} (reached : run step s es = some t) {k : Nat}
    (late : es.length ≤ k) : trace step s es k = t := by
  induction es generalizing s k with
  | nil =>
    obtain rfl := Option.some.inj reached
    exact trace_nil s k
  | cons e es ih =>
    obtain ⟨m, first, rest⟩ := Option.bind_eq_some_iff.mp reached
    cases k with
    | zero => cases late
    | succ k =>
      rw [trace, first, Option.elim_some]
      exact ih rest (Nat.le_of_succ_le_succ late)

theorem trace_meets {C : σ → ε → Prop} {s t : σ} {es : List ε} (meets : Guarded step C s es)
    (reached : run step s es = some t) (later : ε) {k : Nat} (early : k < es.length) :
    C (trace step s es k) (es.getD k later) := by
  induction es generalizing s k with
  | nil => cases early
  | cons e es ih =>
    obtain ⟨m, first, rest⟩ := Option.bind_eq_some_iff.mp reached
    cases k with
    | zero => exact meets.1
    | succ k =>
      rw [trace, first, Option.elim_some]
      exact ih (meets.2 m first) rest (Nat.lt_of_succ_lt_succ early)

/-- A run that has ended at its last state and not before is a behaviour, whatever the events
that come later. -/
theorem behaves_of_run {s t : σ} {es : List ε} (reached : run step s es = some t) (ends : ended t)
    (within : Guarded step (fun s _ => ¬ ended s) s es) (later : ε) :
    Behaves step ended (trace step s es) fun k => es.getD k later := by
  induction es generalizing s with
  | nil =>
    obtain rfl := Option.some.inj reached
    refine ⟨?_, ?_⟩
    · intro k alive
      rw [trace_nil] at alive
      exact absurd ends alive
    · intro k _
      rw [trace_nil, trace_nil]
  | cons e es ih =>
    obtain ⟨m, first, rest⟩ := Option.bind_eq_some_iff.mp reached
    have tail := ih rest (within.2 m first)
    have shift (k : Nat) : trace step s (e :: es) (k + 1) = trace step m es k := by
      rw [trace, first, Option.elim_some]
    refine ⟨?_, ?_⟩
    · intro k alive
      cases k with
      | zero =>
        rw [shift]
        cases es with
        | nil => exact first
        | cons f fs => exact first
      | succ k =>
        rw [shift] at alive ⊢
        rw [shift]
        exact tail.moves k alive
    · intro k here
      cases k with
      | zero => exact absurd here within.1
      | succ k =>
        rw [shift] at here ⊢
        rw [shift]
        exact tail.stays k here

end IecUtils.Foundation.Behaviour
