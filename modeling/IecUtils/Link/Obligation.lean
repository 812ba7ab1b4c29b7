/- Module: IecUtils/Link/Obligation
   source: iecsock_iframe_recv, t2_timer_run, t2_timer_start and iecsock_sframe_send of ieclink/iecsock.c
   digest: The receiver never owes w acknowledgements, has t2 pending while it owes one, and acknowledges what it has. -/

import IecUtils.Link.Duplex
import IecUtils.Link.Handling

set_option autoImplicit false
set_option relaxedAutoImplicit false

namespace IecUtils.Link.Obligation

open IecUtils.Foundation.SequenceNumber
open IecUtils.Foundation.Transition
open IecUtils.Link.Frame
open IecUtils.Link.Session
open IecUtils.Link.Endpoint
open IecUtils.Link.SendWindow
open IecUtils.Link.Duplex
open IecUtils.Link.Handling

/-- The acknowledgement number a peer ends up with once it has taken everything on
the channel, if it holds `v` now. -/
def lastAck (v : Nat) (out : List Apdu) : Nat := (ackNumbers out).getLastD v

theorem lastAck_append_control (v : Nat) (out : List Apdu) {f : Apdu} (control : frameType f.h = .u) :
    lastAck v (out ++ [f]) = lastAck v out := by
  simp [lastAck, ackNumbers, control]

theorem lastAck_append_bearing (v : Nat) (out : List Apdu) {f : Apdu} (bearing : frameType f.h ≠ .u) :
    lastAck v (out ++ [f]) = f.h.nr := by
  simp [lastAck, ackNumbers, bearing]

/-- A session that has accepted `n` information frames. The counts `acked` and
`latest` lie behind `va_peer` and behind the last acknowledgement on its way to a
peer that holds `v`. -/
structure Owing (w v n : Nat) (s : Iecsock) : Prop where
  option : s.w = w
  counts : s.vr = n % 32767
  owed : ∃ acked latest, acked ≤ latest ∧ latest ≤ n ∧ n < acked + w ∧
    s.vaPeer = acked % 32767 ∧ lastAck v s.output = latest % 32767
  timer : s.vr ≠ s.vaPeer → s.t2Timer = true
  prepared : ∀ b ∈ s.writeQ, frameType b.h = .i

section Step

variable {w v n : Nat} {s t : Iecsock}

private theorem Owing.congr (h : Owing w v n s) (hw : t.w = s.w) (hvr : t.vr = s.vr)
    (hva : t.vaPeer = s.vaPeer) (htimer : t.t2Timer = s.t2Timer) (hq : t.writeQ = s.writeQ)
    (hout : t.output = s.output) : Owing w v n t := by
  refine ⟨hw.trans h.option, hvr.trans h.counts, ?_, ?_, ?_⟩
  · rw [hva, hout]
    exact h.owed
  · rw [hvr, hva, htimer]
    exact h.timer
  · rw [hq]
    exact h.prepared

private theorem Owing.field (h : Owing w v n s) : s.vr % 32768 = n % 32767 := by
  rw [h.counts, mod_field]

private theorem Owing.told (h : Owing w v n s) {f : Apdu} (bearing : frameType f.h ≠ .u → f.h.nr = n % 32767) :
    ∃ acked latest, acked ≤ latest ∧ latest ≤ n ∧ n < acked + w ∧
      s.vaPeer = acked % 32767 ∧ lastAck v (s.output ++ [f]) = latest % 32767 := by
  obtain ⟨acked, latest, low, high, due, peer, last⟩ := h.owed
  by_cases control : frameType f.h = .u
  · refine ⟨acked, latest, low, high, due, peer, ?_⟩
    rw [lastAck_append_control v s.output control]
    exact last
  · refine ⟨acked, n, low.trans high, le_rfl, due, peer, ?_⟩
    rw [lastAck_append_bearing v s.output control]
    exact bearing control

private theorem Owing.send (s t : Iecsock) (h : Owing w v n s) (sent : Send s t) : Owing w v n t := by
  cases sent with
  | enqueue asdu =>
    refine { h with prepared := ?_ }
    intro b member
    rcases List.mem_append.mp member with old | new
    · exact h.prepared b old
    · obtain rfl := List.mem_singleton.mp new
      exact frameType_asduBuf asdu
  | @transmit b q queue opened room =>
    rw [transmitBuf_eq]
    refine ⟨h.option, h.counts, ?_, h.timer, ?_⟩
    · apply h.told
      intro _
      change (((b.h.setNr s.vr).setNs s.vs).nr) = _
      rw [Iechdr.nr_setNs, Iechdr.nr_setNr, h.field]
    · intro c member
      exact h.prepared c (by rw [queue]; exact List.mem_cons_of_mem _ member)

private theorem Owing.sends (h : Owing w v n s) (sent : Sends s t) : Owing w v n t :=
  sent.keeps Owing.send h

private theorem Owing.uframe (h : Owing w v n s) (func : UframeFunc) :
    Owing w v n (iecsockUframeSend s func) := by
  refine ⟨h.option, h.counts, ?_, h.timer, h.prepared⟩
  apply h.told
  intro bearing
  exact absurd (frameType_uframeHdr func) bearing

private theorem Owing.supervised (h : Owing w v n s) : Owing w v n (supervised s) := by
  obtain ⟨_, same⟩ := supervised_touches s
  rw [same]
  exact { h with }

theorem owed_distance {acked : Nat} (low : acked ≤ n) (near : n - acked < 32767)
    (peer : s.vaPeer = acked % 32767) :
    seqDist (n % 32767) s.vaPeer = ((n - acked : Nat) : Int) := by
  have residue : s.vaPeer ≤ 32767 := by
    rw [peer]
    exact (Nat.mod_lt _ (by decide)).le
  rw [seqDist_eq residue, peer, wrapDist_mod low near]

/-- One more accepted frame: it is the `w`-th one owed and acknowledged at once, or
there is still room for another. -/
private theorem Owing.counted (h : Owing w v n s) (one : 1 ≤ w) (hw : w < 32767) :
    Owing w v (n + 1) (counted s) := by
  obtain ⟨acked, latest, low, high, due, peer, last⟩ := h.owed
  have next : (s.vr + 1) % 32767 = (n + 1) % 32767 := by
    rw [h.counts, Nat.mod_add_mod]
  have distance : seqDist ((n + 1) % 32767) s.vaPeer = ((n + 1 - acked : Nat) : Int) :=
    owed_distance (by omega) (by omega) peer
  rcases counted_cases s with ⟨reached, same⟩ | ⟨short, same⟩
  · rw [same, next]
    refine ⟨h.option, rfl, ?_, fun behind => absurd rfl behind, h.prepared⟩
    refine ⟨n + 1, n + 1, le_rfl, le_rfl, by omega, rfl, ?_⟩
    rw [lastAck_append_bearing v s.output (by simp), nr_sframeHdr, mod_field]
  · rw [same, next]
    refine ⟨h.option, rfl, ?_, fun _ => rfl, h.prepared⟩
    rw [next, distance, h.option] at short
    have below : n + 1 - acked ≠ w := fun full => short (by rw [full])
    exact ⟨acked, latest, low, by omega, by omega, peer, last⟩

theorem outcome_owing (one : 1 ≤ w) (hw : w < 32767) {x y : Station} {e : Event}
    (h : Owing w v x.2.delivered.length x.1) (outcome : Outcome x e y) :
    y.1.closed = true ∨ Owing w v y.2.delivered.length y.1 := by
  have heard : Owing w v x.2.delivered.length (heardFrame x.1) := { h with }
  cases outcome with
  | app sent delivered =>
    rw [delivered]
    exact .inr (h.sends sent)
  | ignored type gate => exact .inr heard
  | refused => exact .inl rfl
  | badNs passed sent => exact .inl rfl
  | @iframe f _ _ _ type opened passed before after delivered =>
    have acked : Owing w v x.2.delivered.length { heardFrame x.1 with va := f.h.nr } := { heard with }
    rw [delivered, List.length_append, List.length_singleton]
    exact .inr (((acked.supervised.sends before).counted one hw).sends after)
  | @sframe f _ _ type passed sent delivered =>
    have acked : Owing w v x.2.delivered.length
        { iecsockRunAckwQueue (heardFrame x.1) f.h.nr with va := f.h.nr } := { heard with }
    rw [delivered]
    exact .inr (acked.supervised.sends sent)
  | startact type func side sent delivered =>
    have told := (heard.congr (t := { heardFrame x.1 with stopdt := false }) rfl rfl rfl rfl rfl
      rfl).uframe .startcon
    rw [delivered]
    exact .inr (told.sends sent)
  | startcon type func side sent delivered =>
    rw [delivered]
    refine .inr (Owing.sends ?_ sent)
    exact { heard with }
  | stopact type func side sent delivered =>
    have told := (heard.congr (t := { heardFrame x.1 with stopdt := true }) rfl rfl rfl rfl rfl
      rfl).uframe .stopcon
    rw [delivered]
    exact .inr (told.sends sent)
  | stopcon type func side sent delivered =>
    rw [delivered]
    refine .inr (Owing.sends ?_ sent)
    exact { heard with }
  | testact type func quiet => exact .inr { h.uframe .testcon with }
  | testcon type func armed => exact .inr { heard with }
  | t1 => exact .inl rfl
  | t2 =>
    right
    refine ⟨h.option, h.counts, ?_, fun behind => absurd rfl behind, h.prepared⟩
    refine ⟨x.2.delivered.length, x.2.delivered.length, le_rfl, le_rfl,
      Nat.lt_add_of_pos_right one, h.counts, ?_⟩
    change lastAck v (x.1.output ++ [⟨sframeHdr x.1.vr, []⟩]) = _
    rw [lastAck_append_bearing v x.1.output (by simp), nr_sframeHdr, h.field]
  | t3 => exact .inr { h.uframe .testact with }

end Step

section Supervisory

variable {s t : Iecsock}

private theorem sends_adds (sent : Sends s t) (prepared : ∀ b ∈ s.writeQ, frameType b.h = .i) (vr : Nat) :
    Adds (fun f => frameType f.h = .s → f.h.nr = vr) s t := by
  obtain ⟨_, _, more, grown, info⟩ := sent.info prepared
  refine ⟨more, grown, ?_⟩
  intro f member super
  exact absurd ((info f member).symm.trans super) (by decide)

private theorem acked_adds {m : Iecsock} (prepared : ∀ b ∈ s.writeQ, frameType b.h = .i)
    (sent : Sends (supervised m) t) (output : m.output = s.output) (queue : m.writeQ = s.writeQ)
    (vr : Nat) : (∀ b ∈ t.writeQ, frameType b.h = .i) ∧
      Adds (fun f => frameType f.h = .s → f.h.nr = vr) s t := by
  have same : (supervised m).output = m.output ∧ (supervised m).writeQ = m.writeQ := by
    obtain ⟨_, same⟩ := supervised_touches m
    rw [same]
    exact ⟨rfl, rfl⟩
  have ready : ∀ b ∈ (supervised m).writeQ, frameType b.h = .i := by
    rw [same.2, queue]
    exact prepared
  have none : Adds (fun f => frameType f.h = .s → f.h.nr = vr) s (supervised m) :=
    Adds.none (same.1.trans output)
  exact ⟨(sent.info ready).1, none.trans (sends_adds sent ready vr)⟩

private theorem counted_adds (s : Iecsock) (vr : Nat) (same : vr = (counted s).vr) :
    Adds (fun f => frameType f.h = .s → f.h.nr = vr) s (counted s) := by
  rcases counted_cases s with ⟨_, now⟩ | ⟨_, now⟩
  · rw [now] at same ⊢
    refine Adds.one rfl ?_
    intro _
    rw [nr_sframeHdr, mod_field]
    exact same.symm
  · rw [now]
    exact Adds.none rfl

private theorem outcome_adds {x y : Station} {e : Event} (low : x.1.vr < 32767)
    (prepared : ∀ b ∈ x.1.writeQ, frameType b.h = .i) (outcome : Outcome x e y) :
    Adds (fun f => frameType f.h = .s → f.h.nr = y.1.vr) x.1 y.1 := by
  have control {t : Iecsock} {func : UframeFunc}
      (added : t.output = x.1.output ++ [⟨uframeHdr func, []⟩]) (vr : Nat) :
      Adds (fun f => frameType f.h = .s → f.h.nr = vr) x.1 t := by
    refine Adds.one added ?_
    intro super
    exact absurd ((frameType_uframeHdr func).symm.trans super) (by decide)
  cases outcome with
  | app sent delivered => exact sends_adds sent prepared _
  | ignored type gate => exact Adds.none rfl
  | refused => exact Adds.none rfl
  | @badNs f _ _ _ passed sent => exact (acked_adds prepared sent rfl rfl _).2
  | @iframe f _ m _ type opened passed before after delivered =>
    obtain ⟨ready, first⟩ := acked_adds prepared before rfl rfl y.1.vr
    have counted : ∀ b ∈ (counted m).writeQ, frameType b.h = .i := by
      rcases counted_cases m with ⟨_, now⟩ | ⟨_, now⟩ <;> rw [now] <;> exact ready
    have second := counted_adds m y.1.vr (after.info counted).2.1
    exact (first.trans second).trans (sends_adds after counted _)
  | @sframe f _ _ type passed sent delivered => exact (acked_adds prepared sent rfl rfl _).2
  | startact type func side sent delivered => exact (control rfl _).trans (sends_adds sent prepared _)
  | startcon type func side sent delivered => exact (Adds.none rfl).trans (sends_adds sent prepared _)
  | stopact type func side sent delivered => exact (control rfl _).trans (sends_adds sent prepared _)
  | stopcon type func side sent delivered => exact (Adds.none rfl).trans (sends_adds sent prepared _)
  | testact type func quiet => exact control rfl _
  | testcon type func armed => exact Adds.none rfl
  | t1 => exact Adds.none rfl
  | t2 =>
    refine Adds.one rfl ?_
    intro _
    show (sframeHdr x.1.vr).nr = x.1.vr
    rw [nr_sframeHdr]
    exact Nat.mod_eq_of_lt (by omega)
  | t3 => exact control rfl _

end Supervisory

/-- A session before its first information frame, in either direction. -/
structure Unused (s : Iecsock) : Prop where
  zero : ZeroCounters s
  writeQ : s.writeQ = []
  acks : ackNumbers s.output = []

theorem Unused.owing {s : Iecsock} (h : Unused s) (one : 1 ≤ s.w) : Owing s.w 0 0 s := by
  obtain ⟨va, vs, vr, peer⟩ := h.zero
  refine ⟨rfl, vr, ⟨0, 0, le_rfl, le_rfl, by omega, peer, ?_⟩, ?_, ?_⟩
  · rw [lastAck, h.acks]
    rfl
  · intro behind
    exact absurd (vr.trans peer.symm) behind
  · rw [h.writeQ]
    intro b member
    cases member

/-- For every `w` in range and every run, on whatever frames arrive: as long as the
session is open, fewer than `w` accepted frames are unacknowledged, `t2` is pending
if there is one, and `va_peer` stays behind `vr`. Every S-frame the next event
sends carries the receive counter. -/
theorem acknowledgement_obligation {s : Iecsock} (unused : Unused s) (one : 1 ≤ s.w)
    (hw : s.w < 32767) {x : Station} {es : List Event}
    (reached : run step (s, AppLog.empty) es = some x) (opened : x.1.closed = false) :
    seqDist x.1.vr x.1.vaPeer < s.w ∧
      (x.1.vr ≠ x.1.vaPeer → x.1.t2Timer = true) ∧
      (∃ acked, acked ≤ x.2.delivered.length ∧ x.2.delivered.length < acked + s.w ∧
        x.1.vaPeer = acked % 32767 ∧ x.1.vr = x.2.delivered.length % 32767) ∧
      ∀ e y, step x e = some y → ∃ more, y.1.output = x.1.output ++ more ∧
        ∀ f ∈ more, frameType f.h = .s → f.h.nr = y.1.vr := by
  have meets : Guarded step (fun _ _ => True) (s, AppLog.empty) es :=
    guarded_of_forall (fun _ _ => trivial) _ es
  have invariant := open_invariant (I := fun z => Owing s.w 0 z.2.delivered.length z.1)
    (x := (s, AppLog.empty)) (fun _ _ _ inv _ outcome => outcome_owing one hw inv outcome)
    (unused.owing one) meets reached
  rcases invariant with closed | owing
  · exact absurd (opened.symm.trans closed) (by decide)
  · obtain ⟨acked, latest, low, high, due, peer, _⟩ := owing.owed
    have distance := owed_distance (s := x.1) (low.trans high) (by omega) peer
    have range : x.1.vr < 32767 := by
      rw [owing.counts]
      exact Nat.mod_lt _ (by decide)
    refine ⟨?_, owing.timer, ⟨acked, low.trans high, due, peer, owing.counts⟩, ?_⟩
    · rw [owing.counts, distance]
      omega
    · intro e y taken
      exact outcome_adds range owing.prepared (step_outcome taken)

/-- With `w` at two, the first information frame is owed. -/
theorem acknowledgement_obligation_two :
    let s := iecsockSetOptions (Iecsock.fresh .master) ⟨2, 12⟩
    ∃ x, run step (s, AppLog.empty) [.recv (bareIframe 0 0) { }] = some x ∧
      seqDist x.1.vr x.1.vaPeer < 2 ∧ x.1.vr ≠ x.1.vaPeer ∧ x.1.t2Timer = true := by
  intro s
  have unused : Unused s := ⟨⟨rfl, rfl, rfl, rfl⟩, rfl, rfl⟩
  have reached : run step (s, AppLog.empty) [.recv (bareIframe 0 0) { }] = some _ := rfl
  obtain ⟨bound, timer, _⟩ := acknowledgement_obligation unused (by decide) (by decide) reached
    (by decide)
  exact ⟨_, reached, bound, by decide, timer (by decide)⟩

end IecUtils.Link.Obligation
