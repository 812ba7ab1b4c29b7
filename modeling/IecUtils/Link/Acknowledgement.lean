/- Module: IecUtils/Link/Acknowledgement
   source: check_nr, iecsock_iframe_recv and iecsock_sframe_recv of ieclink/iecsock.c
   digest: An accepted acknowledgement number is a real one exactly if it is not the alias of zero. -/

import IecUtils.Link.Handling
import IecUtils.Link.SendWindow

set_option autoImplicit false
set_option relaxedAutoImplicit false

namespace IecUtils.Link.Acknowledgement

open IecUtils.Foundation.SequenceNumber
open IecUtils.Foundation.Transition
open IecUtils.Link.Frame
open IecUtils.Link.Session
open IecUtils.Link.Endpoint
open IecUtils.Link.Handling
open IecUtils.Link.SendWindow

/-- An information or supervisory frame whose acknowledgement is accepted. -/
structure Acknowledges (s : Iecsock) (f : Apdu) : Prop where
  type : frameType f.h = .s ∨ frameType f.h = .i ∧ ¬ s.gated
  passed : checkNr s f.h.nr = true

section Observation

/-- The application of a script, with the sessions that `transmit_wakeup` was called for. -/
abbrev Observed := Iecsock × (AppLog × List Iecsock)

def observe (act : Station → Station) (x : Observed) : Observed :=
  ((act (x.1, x.2.1)).1, ((act (x.1, x.2.1)).2, x.2.2))

/-- The hooks of a script, with each call of `transmit_wakeup` on record. -/
def observed (script : HookScript) : Iechooks (AppLog × List Iecsock) where
  activationIndication := some (observe (execAll script.activation))
  deactivationIndication := some (observe (execAll script.deactivation))
  dataIndication := script.hooks.dataIndication.map fun hook buf => observe (hook buf)
  transmitWakeup := some fun x =>
    observe (execAll script.wakeup) (x.1, (x.2.1, x.2.2 ++ [x.1]))

/-- A state without the record. -/
def station (x : Observed) : Station := (x.1, x.2.1)

/-- The result of a handler without the record. -/
def unrecorded (r : Int × Observed) : Int × Station := (r.1, station r.2)

variable (script : HookScript) (x : Observed) (f : Apdu)

private theorem wakeIfAcked_unrecorded :
    station (wakeIfAcked (observed script) x) = wakeIfAcked script.hooks (station x) := by
  unfold wakeIfAcked station
  split <;> rfl

/-- What `iecsock_iframe_recv` does behind the acknowledgement. -/
def numberedPart {σ : Type} (hooks : Iechooks σ) (x : Iecsock × σ) (f : Apdu) : Int × (Iecsock × σ) :=
  let x := (t2TimerStart (t2TimerStop x.1), x.2)
  if !checkNs x.1 f.h.ns then (-1, x)
  else
    let s := { x.1 with vr := (x.1.vr + 1) % 32767 }
    let s := if seqDist s.vr s.vaPeer = s.w then { iecsockSframeSend s with vaPeer := s.vr } else s
    (0, indicate (hooks.dataIndication.map fun hook => hook ⟨f.h.length - 4, f.h, f.data⟩) (s, x.2))

theorem iframeRecv_eq {σ : Type} (hooks : Iechooks σ) (x : Iecsock × σ) (f : Apdu) :
    iecsockIframeRecv hooks x f =
      if !checkNr x.1 f.h.nr then (-1, x)
      else numberedPart hooks (wakeIfAcked hooks ({ x.1 with va := f.h.nr }, x.2)) f :=
  rfl

private theorem numberedPart_unrecorded :
    unrecorded (numberedPart (observed script) x f) = numberedPart script.hooks (station x) f := by
  have same : checkNs (t2TimerStart (t2TimerStop (station x).1)) f.h.ns =
      checkNs (t2TimerStart (t2TimerStop x.1)) f.h.ns := rfl
  unfold numberedPart
  cases ns : checkNs (t2TimerStart (t2TimerStop x.1)) f.h.ns with
  | false =>
    simp only [same, ns]
    rfl
  | true =>
    simp only [same, ns]
    rfl

private theorem iframe_unrecorded :
    unrecorded (iecsockIframeRecv (observed script) x f) =
      iecsockIframeRecv script.hooks (station x) f := by
  have same : checkNr (station x).1 f.h.nr = checkNr x.1 f.h.nr := rfl
  rw [iframeRecv_eq, iframeRecv_eq, same]
  split
  · rfl
  · rw [numberedPart_unrecorded, wakeIfAcked_unrecorded]
    rfl

private theorem sframe_unrecorded :
    unrecorded (iecsockSframeRecv (observed script) x f) =
      iecsockSframeRecv script.hooks (station x) f := by
  unfold iecsockSframeRecv
  cases nr : checkNr x.1 f.h.nr with
  | false => simp [station, unrecorded, nr]
  | true =>
    simp only [station, nr, Bool.not_true, Bool.false_eq_true, if_false]
    exact congrArg (Prod.mk 0) (wakeIfAcked_unrecorded script _)

private theorem uframe_unrecorded :
    unrecorded (iecsockUframeRecv (observed script) x f) =
      iecsockUframeRecv script.hooks (station x) f := by
  unfold iecsockUframeRecv
  cases uframeFunc f.h with
  | testact => rfl
  | testcon =>
    by_cases idle : x.1.testfr = false
    · simp [station, unrecorded, idle]
    · simp [station, unrecorded, idle]
  | _ =>
    cases side : x.1.type with
    | master => simp [station, unrecorded, observed, observe, indicate, HookScript.hooks, side]
    | slave => simp [station, unrecorded, observed, observe, indicate, HookScript.hooks, side]

theorem frameRecv_unrecorded :
    unrecorded (iecsockFrameRecv (observed script) x f) =
      iecsockFrameRecv script.hooks (station x) f := by
  unfold iecsockFrameRecv
  cases frameType f.h with
  | i =>
    by_cases gate : (t3TimerStart (t3TimerStop x.1)).gated
    · have same : (t3TimerStart (t3TimerStop (station x).1)).gated := gate
      simp only [if_pos gate, if_pos same]
      rfl
    · have same : ¬ (t3TimerStart (t3TimerStop (station x).1)).gated := gate
      simp only [if_neg gate, if_neg same]
      exact iframe_unrecorded script _ f
  | s => exact sframe_unrecorded script _ f
  | u => exact uframe_unrecorded script _ f

end Observation

/-- The sessions for which the handling of a frame calls `transmit_wakeup`. -/
def wakeups (script : HookScript) (x : Station) (f : Apdu) : List Iecsock :=
  (iecsockFrameRecv (observed script) (x.1, (x.2, [])) f).2.2.2

/-- The frame acknowledges what it says: `va` is a sequence number, it equals `vs` exactly
when no frame sent is left, and then `t1` is stopped and the hook called, if it is set. -/
structure RealAck (script : HookScript) (x : Station) (f : Apdu) : Prop where
  range : (iecsockFrameRecv script.hooks x f).2.1.va ≤ 32766
  agrees : (iecsockFrameRecv script.hooks x f).2.1.va = (iecsockFrameRecv script.hooks x f).2.1.vs ↔
    seqDist (iecsockFrameRecv script.hooks x f).2.1.vs (iecsockFrameRecv script.hooks x f).2.1.va = 0
  woken : seqDist x.1.vs f.h.nr = 0 →
    ∃ s, wakeups script x f = [s] ∧ s.va = s.vs ∧ s.t1Timer = false
  stopped : seqDist x.1.vs f.h.nr = 0 →
    (iecsockFrameRecv ({ } : Iechooks AppLog) x f).2.1.t1Timer = false

section Counters

private theorem instant_vs {x y : Station} (low : x.1.vs < 32767) (change : Instant x y) :
    y.1.vs < 32767 := by
  cases change with
  | here l =>
    cases l with
    | transmit queue opened room => exact Nat.mod_lt _ (by decide)
    | _ => exact low
  | control does => cases does <;> exact low
  | _ => exact low

theorem instants_vs {x y : Station} (low : x.1.vs < 32767) (path : Instants x y) :
    y.1.vs < 32767 := by
  induction path with
  | refl => exact low
  | tail _ last ih => exact instant_vs ih last

theorem run_vs {x y : Station} {es : List Event} (low : x.1.vs < 32767)
    (reached : run step x es = some y) : y.1.vs < 32767 :=
  run_invariant (I := fun z => z.1.vs < 32767)
    (fun _ _ _ inv happens => instants_vs inv (step_instants happens)) low reached

theorem handled_va {script : HookScript} {x : Station} {f : Apdu} (ack : Acknowledges x.1 f) :
    (iecsockFrameRecv script.hooks x f).2.1.va = f.h.nr := by
  have received := frame_received script x f
  generalize (iecsockFrameRecv script.hooks x f).1 = r at received
  generalize (iecsockFrameRecv script.hooks x f).2 = y at received
  obtain ⟨type, passed⟩ := ack
  have numbered : frameType f.h ≠ .u := by
    rcases type with isS | ⟨isI, _⟩
    · simp [isS]
    · simp [isI]
  cases received with
  | ignored isI gate =>
    rcases type with isS | ⟨_, opened⟩
    · rw [isI] at isS
      cases isS
    · exact absurd gate opened
  | badNr _ refused =>
    rw [refused] at passed
    cases passed
  | badNs _ _ before _ => exact before.same.va
  | iframe _ _ _ before _ after => exact after.same.va.trans before.same.va
  | sframe _ _ before => exact before.same.va
  | badControl isU => exact absurd isU numbered
  | control isU _ _ => exact absurd isU numbered

theorem seqDist_eq_zero_iff {x y : Nat} (hx : x < 32767) (hy : y < 32767) :
    seqDist x y = 0 ↔ y = x := by
  rw [seqDist_eq (by omega), Int.natCast_eq_zero, wrapDist_eq_zero_iff hx hy]

end Counters

section Handling

variable {x : Station} {f : Apdu}

theorem frameRecv_acked {σ : Type} (hooks : Iechooks σ) {x : Iecsock × σ}
    (ack : Acknowledges x.1 f) :
    ∃ s : Iecsock, s.va = f.h.nr ∧ s.vs = x.1.vs ∧
      ((iecsockFrameRecv hooks x f).2 = wakeIfAcked hooks (s, x.2) ∨
        (iecsockFrameRecv hooks x f).2 = (numberedPart hooks (wakeIfAcked hooks (s, x.2)) f).2) := by
  obtain ⟨type, passed⟩ := ack
  have still : checkNr (t3TimerStart (t3TimerStop x.1)) f.h.nr = true := passed
  rcases type with isS | ⟨isI, opened⟩
  · refine ⟨{ iecsockRunAckwQueue (t3TimerStart (t3TimerStop x.1)) f.h.nr with va := f.h.nr },
      rfl, rfl, Or.inl ?_⟩
    unfold iecsockFrameRecv iecsockSframeRecv
    simp only [isS, still, Bool.not_true, Bool.false_eq_true, if_false]
  · refine ⟨{ t3TimerStart (t3TimerStop x.1) with va := f.h.nr }, rfl, rfl, Or.inr ?_⟩
    have stays : ¬ (t3TimerStart (t3TimerStop x.1)).gated := opened
    unfold iecsockFrameRecv
    simp only [isI, if_neg stays, iframeRecv_eq, still, Bool.not_true, Bool.false_eq_true, if_false]

theorem numberedPart_record (script : HookScript) (y : Observed) :
    (numberedPart (observed script) y f).2.2.2 = y.2.2 := by
  unfold numberedPart
  dsimp only
  split <;> rfl

theorem numberedPart_t1 {σ : Type} (y : Iecsock × σ) :
    (numberedPart ({ } : Iechooks σ) y f).2.1.t1Timer = y.1.t1Timer := by
  unfold numberedPart
  dsimp only
  split
  · rfl
  · unfold indicate
    dsimp only [Option.map_none, Option.elim_none]
    split <;> rfl

/-- The acknowledgement of everything sent is noticed: the hook is called once, and finds
`t1` stopped. -/
theorem woken_once (script : HookScript) (ack : Acknowledges x.1 f) (all : f.h.nr = x.1.vs) :
    ∃ s, wakeups script x f = [s] ∧ s.va = s.vs ∧ s.t1Timer = false := by
  obtain ⟨s, va, vs, handled⟩ := frameRecv_acked (observed script) (x := (x.1, (x.2, []))) ack
  have acked : s.va = s.vs := va.trans (all.trans vs.symm)
  have called : (wakeIfAcked (observed script) (s, (x.2, []))).2.2 = [t1TimerStop s] := by
    unfold wakeIfAcked
    rw [if_pos acked]
    rfl
  refine ⟨t1TimerStop s, ?_, acked, rfl⟩
  rcases handled with same | same
  · rw [wakeups, same]
    exact called
  · rw [wakeups, same, numberedPart_record]
    exact called

theorem stopped_without_hook (ack : Acknowledges x.1 f) (all : f.h.nr = x.1.vs) :
    (iecsockFrameRecv ({ } : Iechooks AppLog) x f).2.1.t1Timer = false := by
  obtain ⟨s, va, vs, handled⟩ := frameRecv_acked ({ } : Iechooks AppLog) ack
  have acked : s.va = s.vs := va.trans (all.trans vs.symm)
  have halted : (wakeIfAcked ({ } : Iechooks AppLog) (s, x.2)).1.t1Timer = false := by
    unfold wakeIfAcked
    rw [if_pos acked]
    rfl
  rcases handled with same | same
  · rw [same]
    exact halted
  · rw [same, numberedPart_t1]
    exact halted

/-- In every state that a session reaches, with any application, an information or
supervisory frame that passes `check_nr` is a real acknowledgement exactly if its number
is not 32767. -/
theorem real_acknowledgement_iff {start : Station} {es : List Event} (zero : ZeroCounters start.1)
    (reached : run step start es = some x) (ack : Acknowledges x.1 f) (script : HookScript) :
    RealAck script x f ↔ f.h.nr ≠ 32767 := by
  have low : x.1.vs < 32767 := run_vs (by rw [zero.2.1]; decide) reached
  have va : (iecsockFrameRecv script.hooks x f).2.1.va = f.h.nr := handled_va ack
  have after : (iecsockFrameRecv script.hooks x f).2.1.vs < 32767 :=
    instants_vs low (received_instants (frame_received script x f))
  have field := f.h.nr_lt
  constructor
  · intro real wrapped
    have range := real.range
    omega
  · intro named
    have small : f.h.nr < 32767 := by omega
    have all (none : seqDist x.1.vs f.h.nr = 0) : f.h.nr = x.1.vs :=
      (seqDist_eq_zero_iff low small).mp none
    refine ⟨by omega, ?_, fun none => woken_once script ack (all none),
      fun none => stopped_without_hook ack (all none)⟩
    rw [seqDist_eq_zero_iff after (va ▸ small)]

end Handling

section Examples

def oneSent : List Event :=
  [.recv ⟨uframeHdr .startcon, []⟩ { }, .app (.enqueue reading), .app .runWriteQueue]

theorem one_acknowledged :
    ∃ x, run step (Iecsock.fresh .master, AppLog.empty) oneSent = some x ∧
      Acknowledges x.1 ⟨sframeHdr 1, []⟩ ∧ RealAck { } x ⟨sframeHdr 1, []⟩ := by
  obtain ⟨x, reached, passed⟩ : ∃ x, run step (Iecsock.fresh .master, AppLog.empty) oneSent = some x ∧
      checkNr x.1 (sframeHdr 1).nr = true := ⟨_, rfl, by decide⟩
  have ack : Acknowledges x.1 ⟨sframeHdr 1, []⟩ := ⟨Or.inl (by decide), passed⟩
  have real := real_acknowledgement_iff ⟨rfl, rfl, rfl, rfl⟩ reached ack { }
  exact ⟨x, reached, ack, real.mpr (by decide)⟩

/-- Nothing was sent, and 32767 is accepted: `va` is no sequence number, it differs from
`vs` although nothing is left, and nobody is told. -/
theorem alias_accepted :
    let x : Station := (Iecsock.fresh .master, AppLog.empty)
    let f : Apdu := ⟨sframeHdr 32767, []⟩
    run step x [] = some x ∧ Acknowledges x.1 f ∧
      (iecsockFrameRecv ({ } : HookScript).hooks x f).2.1.va = 32767 ∧
      seqDist x.1.vs f.h.nr = 0 ∧ wakeups { } x f = [] ∧ ¬ RealAck { } x f := by
  refine ⟨rfl, ⟨Or.inl (by decide), by decide⟩, by decide, by decide, by decide, ?_⟩
  intro real
  exact absurd real.range (by decide)

end Examples

end IecUtils.Link.Acknowledgement
