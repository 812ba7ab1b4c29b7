/- Module: IecUtils/Link/Supervision
   source: t1_timer_run, t3_timer_run, iecsock_run_write_queue and the receive handlers of ieclink/iecsock.c
   digest: Which timers watch an open session: t1 over unacknowledged frames, t1 or t3 over a silent peer. -/

import IecUtils.Link.Handling
import IecUtils.Link.SendWindow

set_option autoImplicit false
set_option relaxedAutoImplicit false

namespace IecUtils.Link.Supervision

open IecUtils.Foundation.SequenceNumber
open IecUtils.Foundation.Transition
open IecUtils.Link.Frame
open IecUtils.Link.Session
open IecUtils.Link.Endpoint
open IecUtils.Link.SendWindow
open IecUtils.Link.Handling

section Unacknowledged

/-- A frame sent and not acknowledged has `t1` pending. The bounds are those of the
send counter and of the fifteen-bit field the acknowledgement comes from. -/
structure Watched (s : Iecsock) : Prop where
  va_le : s.va ≤ 32767
  vs_lt : s.vs < 32767
  watched : s.va ≠ s.vs → s.t1Timer = true

/-- The event does not end supervision early: no confirmation of STARTDT or TESTFR
is accepted while a frame is unacknowledged, and no acknowledgement names
32767, the alias of zero, when there is nothing to acknowledge. -/
def keepsSupervision (x : Station) : Event → Prop
  | .recv f _ =>
      match frameType f.h with
      | .i => x.1.gated ∨ ¬ (x.1.va = 0 ∧ x.1.vs = 0 ∧ f.h.nr = 32767)
      | .s => ¬ (x.1.va = 0 ∧ x.1.vs = 0 ∧ f.h.nr = 32767)
      | .u => x.1.va = x.1.vs ∨
          ¬ (uframeFunc f.h = .startcon ∧ x.1.type = .master) ∧
            ¬ (uframeFunc f.h = .testcon ∧ x.1.testfr = true)
  | _ => True

private theorem Send.watched (s t : Iecsock) (h : Watched s) (sent : Send s t) : Watched t := by
  cases sent with
  | enqueue asdu => exact ⟨h.va_le, h.vs_lt, h.watched⟩
  | transmit queue opened room =>
    rw [transmitBuf_eq]
    exact ⟨h.va_le, Nat.mod_lt _ (by decide), fun _ => rfl⟩

private theorem Watched.sends {s t : Iecsock} (h : Watched s) (sent : Sends s t) : Watched t :=
  sent.keeps Send.watched h

private theorem ack_when_idle {s : Iecsock} (h : Watched s) (idle : s.va = s.vs) {f : Apdu}
    (passed : checkNr s f.h.nr = true) : f.h.nr = s.va ∨ (s.va = 0 ∧ f.h.nr = 32767) := by
  have near := (checkNr_eq h.va_le f.h.nr).mp passed
  have small := f.h.nr_lt
  have low : s.va < 32767 := idle ▸ h.vs_lt
  have zero : wrapDist 32767 s.vs s.va = 0 := (wrapDist_eq_zero_iff h.vs_lt low).mpr idle
  rw [zero] at near
  rcases Nat.lt_or_ge f.h.nr 32767 with lt | ge
  · left
    rw [wrapDist_eq lt h.va_le] at near
    split_ifs at near <;> omega
  · right
    have wrapped : f.h.nr = 32767 := by omega
    rw [wrapped, wrapDist_alias, wrapDist_eq (by decide) h.va_le] at near
    split_ifs at near <;> omega

private theorem Watched.acknowledged {s t : Iecsock} (h : Watched s) {f : Apdu}
    (passed : checkNr s f.h.nr = true) (named : ¬ (s.va = 0 ∧ s.vs = 0 ∧ f.h.nr = 32767))
    (va : t.va = f.h.nr) (vs : t.vs = s.vs) (t1 : t.t1Timer = s.t1Timer) : Watched (supervised t) := by
  have small : t.va ≤ 32767 := by
    have low := f.h.nr_lt
    omega
  have vs_lt : t.vs < 32767 := vs ▸ h.vs_lt
  rcases supervised_cases t with ⟨acked, same⟩ | ⟨behind, same⟩
  · rw [same]
    exact ⟨small, vs_lt, fun more => absurd acked more⟩
  · rw [same]
    refine ⟨small, vs_lt, fun _ => t1.trans (h.watched ?_)⟩
    intro idle
    rcases ack_when_idle h idle passed with stays | ⟨zero, wrapped⟩
    · exact behind (va.trans (stays.trans (idle.trans vs.symm)))
    · exact named ⟨zero, idle ▸ zero, wrapped⟩

private theorem Watched.counted {s : Iecsock} (h : Watched s) : Watched (counted s) := by
  obtain ⟨_, _, same⟩ := counted_touches s
  rw [same]
  exact ⟨h.va_le, h.vs_lt, h.watched⟩

private theorem outcome_watched (x : Station) (e : Event) (y : Station) (h : Watched x.1)
    (keeps : keepsSupervision x e) (outcome : Outcome x e y) :
    y.1.closed = true ∨ Watched y.1 := by
  cases outcome with
  | app sent delivered => exact .inr (h.sends sent)
  | ignored type gate => exact .inr ⟨h.va_le, h.vs_lt, h.watched⟩
  | refused => exact .inl rfl
  | badNs passed sent => exact .inl rfl
  | @iframe f _ _ _ type opened passed before after delivered =>
    simp only [keepsSupervision, type] at keeps
    have named := keeps.resolve_left opened
    have acked := Watched.acknowledged (t := { heardFrame x.1 with va := f.h.nr }) h passed named
      rfl rfl rfl
    exact .inr ((acked.sends before).counted.sends after)
  | @sframe f _ _ type passed sent delivered =>
    simp only [keepsSupervision, type] at keeps
    have acked := Watched.acknowledged
      (t := { iecsockRunAckwQueue (heardFrame x.1) f.h.nr with va := f.h.nr }) h passed keeps rfl rfl rfl
    exact .inr (acked.sends sent)
  | startact type func side sent delivered =>
    have told : Watched (iecsockUframeSend { heardFrame x.1 with stopdt := false } .startcon) :=
      ⟨h.va_le, h.vs_lt, h.watched⟩
    exact .inr (told.sends sent)
  | startcon type func side sent delivered =>
    simp only [keepsSupervision, type, func, side, and_self, not_true_eq_false, false_and,
      or_false] at keeps
    have told : Watched { heardFrame x.1 with t1Timer := false, stopdt := false } :=
      ⟨h.va_le, h.vs_lt, fun behind => absurd keeps behind⟩
    exact .inr (told.sends sent)
  | stopact type func side sent delivered =>
    have told : Watched (iecsockUframeSend { heardFrame x.1 with stopdt := true } .stopcon) :=
      ⟨h.va_le, h.vs_lt, h.watched⟩
    exact .inr (told.sends sent)
  | stopcon type func side sent delivered =>
    have told : Watched { heardFrame x.1 with stopdt := true } := ⟨h.va_le, h.vs_lt, h.watched⟩
    exact .inr (told.sends sent)
  | testact type func quiet => exact .inr ⟨h.va_le, h.vs_lt, h.watched⟩
  | testcon type func armed =>
    simp only [keepsSupervision, type, func, armed, and_self, not_true_eq_false, and_false,
      or_false] at keeps
    exact .inr ⟨h.va_le, h.vs_lt, fun behind => absurd keeps behind⟩
  | t1 => exact .inl rfl
  | t2 => exact .inr ⟨h.va_le, h.vs_lt, h.watched⟩
  | t3 => exact .inr ⟨h.va_le, h.vs_lt, fun _ => rfl⟩

/-- In every run whose events keep supervision, against any peer, with any options
and any application: an open session with a frame sent and not acknowledged has
`t1` pending. -/
theorem unacknowledged_supervised {start x : Station} {es : List Event}
    (zero : ZeroCounters start.1) (meets : Guarded step keepsSupervision start es)
    (reached : run step start es = some x) (opened : x.1.closed = false)
    (unacked : x.1.va ≠ x.1.vs) : x.1.t1Timer = true := by
  obtain ⟨va, vs, _, _⟩ := zero
  have first : Watched start.1 := ⟨by omega, by omega, fun behind => absurd (va.trans vs.symm) behind⟩
  rcases open_invariant (I := fun z => Watched z.1) outcome_watched first meets reached
    with closed | watched
  · exact absurd (opened.symm.trans closed) (by decide)
  · exact watched.watched unacked

/-- A transmission after STARTDT: the frame is watched. -/
theorem unacknowledged_supervised_once :
    let start : Station := (connectWritecb (Iecsock.fresh .master), AppLog.empty)
    ∃ x, run step start [.recv ⟨uframeHdr .startcon, []⟩ { }, .app (.enqueue reading),
        .app .runWriteQueue] = some x ∧ x.1.va ≠ x.1.vs ∧ x.1.t1Timer = true := by
  intro start
  have reached : run step start [.recv ⟨uframeHdr .startcon, []⟩ { }, .app (.enqueue reading),
      .app .runWriteQueue] = some _ := rfl
  have meets : Guarded step keepsSupervision start [.recv ⟨uframeHdr .startcon, []⟩ { },
      .app (.enqueue reading), .app .runWriteQueue] :=
    ⟨.inl rfl, fun _ _ => ⟨trivial, fun _ _ => ⟨trivial, fun _ _ => trivial⟩⟩⟩
  refine ⟨_, reached, by decide, ?_⟩
  exact unacknowledged_supervised ⟨rfl, rfl, rfl, rfl⟩ meets reached rfl (by decide)

/-- The idle timer sends a test while a frame is unacknowledged, and the answer to
the test stops the timer both of them share. -/
theorem unacknowledged_after_test :
    let start : Station := (connectWritecb (Iecsock.fresh .master), AppLog.empty)
    ∃ x, run step start [.recv ⟨uframeHdr .startcon, []⟩ { }, .app (.enqueue reading),
        .app .runWriteQueue, .t3, .recv ⟨uframeHdr .testcon, []⟩ { }] = some x ∧
      x.1.closed = false ∧ x.1.va ≠ x.1.vs ∧ x.1.t1Timer = false := by
  intro start
  refine ⟨_, rfl, ?_⟩
  decide

end Unacknowledged

section Silence

/-- A master that is not closed waits for an answer, or for the peer to speak. -/
structure Listening (s : Iecsock) : Prop where
  master : s.type = .master
  pending : s.t1Timer = true ∨ s.t3Timer = true

private theorem Send.listening (s t : Iecsock) (h : Listening s) (sent : Send s t) :
    Listening t := by
  cases sent with
  | enqueue asdu => exact ⟨h.master, h.pending⟩
  | transmit queue opened room =>
    rw [transmitBuf_eq]
    exact ⟨h.master, .inl rfl⟩

private theorem Listening.sends {s t : Iecsock} (h : Listening s) (sent : Sends s t) :
    Listening t := sent.keeps Send.listening h

private theorem listening_supervised {s : Iecsock} (master : s.type = .master)
    (heard : s.t3Timer = true) : Listening (supervised s) := by
  obtain ⟨_, same⟩ := supervised_touches s
  rw [same]
  exact ⟨master, .inr heard⟩

private theorem Listening.counted {s : Iecsock} (h : Listening s) : Listening (counted s) := by
  obtain ⟨_, _, same⟩ := counted_touches s
  rw [same]
  exact ⟨h.master, h.pending⟩

private theorem outcome_listening (x : Station) (e : Event) (y : Station) (h : Listening x.1)
    (outcome : Outcome x e y) : y.1.closed = true ∨ Listening y.1 := by
  have master := h.master
  cases outcome with
  | app sent delivered => exact .inr (h.sends sent)
  | ignored type gate => exact .inr ⟨master, .inr rfl⟩
  | refused => exact .inl rfl
  | badNs passed sent => exact .inl rfl
  | @iframe f _ _ _ type opened passed before after delivered =>
    have acked := listening_supervised (s := { heardFrame x.1 with va := f.h.nr }) master rfl
    exact .inr ((acked.sends before).counted.sends after)
  | @sframe f _ _ type passed sent delivered =>
    have acked := listening_supervised
      (s := { iecsockRunAckwQueue (heardFrame x.1) f.h.nr with va := f.h.nr }) master rfl
    exact .inr (acked.sends sent)
  | startact type func side sent delivered => exact absurd (master.symm.trans side) (by decide)
  | startcon type func side sent delivered =>
    have told : Listening { heardFrame x.1 with t1Timer := false, stopdt := false } :=
      ⟨master, .inr rfl⟩
    exact .inr (told.sends sent)
  | stopact type func side sent delivered => exact absurd (master.symm.trans side) (by decide)
  | stopcon type func side sent delivered =>
    have told : Listening { heardFrame x.1 with stopdt := true } := ⟨master, .inr rfl⟩
    exact .inr (told.sends sent)
  | @testact _ _ t3 type func quiet =>
    cases t3 with
    | false => exact absurd (master.symm.trans (quiet.mp rfl).1) (by decide)
    | true => exact .inr ⟨master, .inr rfl⟩
  | testcon type func armed => exact .inr ⟨master, .inr rfl⟩
  | t1 => exact .inl rfl
  | t2 => exact .inr ⟨master, h.pending⟩
  -- the test the idle timer sends is itself answered in time or the session ends
  | t3 => exact .inr ⟨master, .inl rfl⟩

/-- From the end of `connect_writecb` or `listen_readcb` on, whatever the peer and
the application do: a master session that is open has `t1` or `t3` pending. -/
theorem dead_link_noticed {s : Iecsock} (log : AppLog) (master : s.type = .master)
    {x : Station} {es : List Event} (reached : run step (connectWritecb s, log) es = some x)
    (opened : x.1.closed = false) : x.1.t1Timer = true ∨ x.1.t3Timer = true := by
  have first : Listening (connectWritecb s) := ⟨master, .inl rfl⟩
  have meets : Guarded step (fun _ _ => True) (connectWritecb s, log) es :=
    guarded_of_forall (fun _ _ => trivial) _ es
  rcases open_invariant (I := fun z => Listening z.1)
    (fun z e t inv _ outcome => outcome_listening z e t inv outcome) first meets reached
    with closed | listening
  · exact absurd (opened.symm.trans closed) (by decide)
  · exact listening.pending

/-- A new connection, after STARTDT and the test that follows a silence. -/
theorem dead_link_noticed_after_test :
    ∃ x, run step (connectWritecb (Iecsock.fresh .master), AppLog.empty)
        [.recv ⟨uframeHdr .startcon, []⟩ { }, .t3] = some x ∧ x.1.closed = false ∧
      (x.1.t1Timer = true ∨ x.1.t3Timer = true) := by
  have reached : run step (connectWritecb (Iecsock.fresh .master), AppLog.empty)
      [.recv ⟨uframeHdr .startcon, []⟩ { }, .t3] = some _ := rfl
  exact ⟨_, reached, rfl, dead_link_noticed AppLog.empty rfl reached rfl⟩

end Silence

end IecUtils.Link.Supervision
