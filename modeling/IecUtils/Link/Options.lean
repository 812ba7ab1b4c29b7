/- Module: IecUtils/Link/Options
   source: iecsock_set_options, iecsock_can_queue, iecsock_run_write_queue and iecsock_iframe_recv of
   ieclink/iecsock.c
   digest: Sessions whose options change on the way, between callbacks and inside hooks. -/

import IecUtils.Link.Obligation
import Mathlib.Algebra.Group.Nat.Defs

set_option autoImplicit false
set_option relaxedAutoImplicit false

namespace IecUtils.Link.Options

open IecUtils.Foundation.SequenceNumber
open IecUtils.Foundation.Transition
open IecUtils.Link.Frame
open IecUtils.Link.Session
open IecUtils.Link.Endpoint (transmitBuf_eq)
open IecUtils.Link.SendWindow
open IecUtils.Link.Obligation (Unused)

section Program

/-- What an application can note: the sessions at its calls of `iecsock_set_options`, with the
options, and the session whenever it has control. -/
structure Record where
  changes : List (Iecsock × IecsockOptions)
  seen : List Iecsock

def Record.empty : Record := ⟨[], []⟩

abbrev Station := Iecsock × Record

inductive AppCall where
  | enqueue (asdu : Asdu)
  | runWriteQueue
  | setOptions (opt : IecsockOptions)

def note (x : Station) : Station := (x.1, { x.2 with seen := x.2.seen ++ [x.1] })

def AppCall.exec (x : Station) : AppCall → Station
  | .enqueue asdu => note ({ x.1 with writeQ := x.1.writeQ ++ [asduBuf asdu] }, x.2)
  | .runWriteQueue => note (iecsockRunWriteQueue x.1, x.2)
  | .setOptions opt =>
      note (iecsockSetOptions x.1 opt, { x.2 with changes := x.2.changes ++ [(x.1, opt)] })

def execAll (calls : List AppCall) (x : Station) : Station := calls.foldl AppCall.exec (note x)

/-- The calls an application makes from inside its hooks during one event. -/
structure HookScript where
  wakeup : List AppCall := []
  activation : List AppCall := []
  deactivation : List AppCall := []
  data : List AppCall := []

def HookScript.hooks (script : HookScript) : Iechooks Record where
  activationIndication := some (execAll script.activation)
  deactivationIndication := some (execAll script.deactivation)
  dataIndication := some fun _ => execAll script.data
  transmitWakeup := some (execAll script.wakeup)

inductive Event where
  | app (call : AppCall)
  | recv (f : Apdu) (script : HookScript)
  | t1
  | t2
  | t3

def recvFrame (script : HookScript) (x : Station) (f : Apdu) : Station :=
  let r := iecsockFrameRecv script.hooks x f
  if r.1 = 0 then r.2 else (iecsockClose r.2.1, r.2.2)

def step (x : Station) : Event → Option Station
  | .app call => if x.1.closed then none else some (call.exec x)
  | .recv f script => if x.1.closed then none else some (recvFrame script x f)
  | .t1 => if x.1.t1Timer then
      some (t1TimerRun { } ({ x.1 with t1Timer := false }, x.2)) else none
  | .t2 => if x.1.t2Timer then some (t2TimerRun { x.1 with t2Timer := false }, x.2) else none
  | .t3 => if x.1.t3Timer then some (t3TimerRun { x.1 with t3Timer := false }, x.2) else none

end Program

section Limits

def lastSframe (out : List Apdu) : Nat :=
  ((out.filter fun f => frameType f.h = .s).map fun f => f.h.nr).getLastD 0

theorem lastSframe_other (out : List Apdu) {f : Apdu} (other : frameType f.h ≠ .s) :
    lastSframe (out ++ [f]) = lastSframe out := by
  simp [lastSframe, other]

theorem lastSframe_sframe (out : List Apdu) {vr : Nat} (range : vr < 32767) :
    lastSframe (out ++ [⟨sframeHdr vr, []⟩]) = vr := by
  simp [lastSframe, Nat.mod_eq_of_lt (by omega : vr < 32768)]

/-- Both limits are kept: at most `k` frames sent are not acknowledged, and fewer than `w` frames
received are not acknowledged by an S-frame. -/
structure Within (s : Iecsock) : Prop where
  k_lt : s.k < 32767
  w_pos : 1 ≤ s.w
  w_lt : s.w < 32767
  window : Window s.k s
  vr_lt : s.vr < 32767
  peer_lt : s.vaPeer < 32767
  owed : wrapDist 32767 s.vr s.vaPeer < s.w
  told : lastSframe s.output = s.vaPeer
  prepared : ∀ b ∈ s.writeQ, frameType b.h = .i

/-- New options that are in range and leave room for what is not acknowledged yet. -/
structure Admits (s : Iecsock) (opt : IecsockOptions) : Prop where
  k_pos : 1 ≤ opt.k
  k_lt : opt.k < 32767
  w_pos : 1 ≤ opt.w
  w_lt : opt.w < 32767
  sent : seqDist s.vs s.va ≤ opt.k
  received : seqDist s.vr s.vaPeer < opt.w

/-- The result of `iecsock_can_queue` is no more than `k` if and only if there are no more than
`k` frames to be acknowledged; it wraps otherwise. -/
theorem canQueue_le_iff {s : Iecsock} (va : s.va ≤ 32767) (k : s.k < 32767) :
    iecsockCanQueue s ≤ s.k ↔ seqDist s.vs s.va ≤ s.k := by
  have bound : wrapDist 32767 s.vs s.va < 32767 := Nat.mod_lt _ (by decide)
  rw [iecsockCanQueue, seqDist_eq va]
  omega

variable {s t : Iecsock}

theorem Within.congr (h : Within s) (hw : t.w = s.w) (hk : t.k = s.k) (hva : t.va = s.va)
    (hvr : t.vr = s.vr) (hvs : t.vs = s.vs) (hpeer : t.vaPeer = s.vaPeer)
    (hq : t.writeQ = s.writeQ) (hout : t.output = s.output) : Within t where
  k_lt := hk ▸ h.k_lt
  w_pos := hw ▸ h.w_pos
  w_lt := hw ▸ h.w_lt
  window := hk ▸ h.window.congr hk hva hvs
  vr_lt := hvr ▸ h.vr_lt
  peer_lt := hpeer ▸ h.peer_lt
  owed := by
    rw [hvr, hpeer, hw]
    exact h.owed
  told := by
    rw [hout, hpeer]
    exact h.told
  prepared := hq ▸ h.prepared

theorem within_of_unused (unused : Unused s) (k : s.k < 32767) (one : 1 ≤ s.w) (w : s.w < 32767) :
    Within s := by
  obtain ⟨va, vs, vr, peer⟩ := unused.zero
  have silent : lastSframe s.output = 0 := by
    have control : ∀ f ∈ s.output, frameType f.h = .u := by
      simpa [Duplex.ackNumbers] using unused.acks
    have none : (s.output.filter fun f => frameType f.h = .s) = [] := by
      rw [List.filter_eq_nil_iff]
      intro f member
      simp [control f member]
    rw [lastSframe, none]
    rfl
  refine ⟨k, one, w, Window.start unused.zero rfl, by omega, by omega, ?_,
    silent.trans peer.symm, ?_⟩
  · rw [vr, peer]
    exact one
  · rw [unused.writeQ]
    intro b member
    exact absurd member List.not_mem_nil

theorem Within.setOptions (h : Within s) {opt : IecsockOptions} (admits : Admits s opt) :
    Within (iecsockSetOptions s opt) := by
  have sent := admits.sent
  have received := admits.received
  have peer := h.peer_lt
  rw [seqDist_eq h.window.va_le] at sent
  rw [seqDist_eq (by omega)] at received
  refine { h with
    k_lt := admits.k_lt
    w_pos := admits.w_pos
    w_lt := admits.w_lt
    window := ?_
    owed := ?_ }
  · exact ⟨rfl, h.window.va_le, h.window.vs_lt, by exact_mod_cast sent⟩
  · exact_mod_cast received

theorem Within.output (h : Within s) {f : Apdu} (other : frameType f.h ≠ .s) :
    Within { s with output := s.output ++ [f] } :=
  { h with window := h.window.congr rfl rfl rfl, told := (lastSframe_other _ other).trans h.told }

theorem Within.uframe (h : Within s) (func : UframeFunc) : Within (iecsockUframeSend s func) :=
  h.output (by simp)

theorem Within.sframe (h : Within s) : Within { iecsockSframeSend s with vaPeer := s.vr } where
  k_lt := h.k_lt
  w_pos := h.w_pos
  w_lt := h.w_lt
  window := h.window.congr rfl rfl rfl
  vr_lt := h.vr_lt
  peer_lt := h.vr_lt
  owed := by
    change wrapDist 32767 s.vr s.vr < s.w
    rw [(wrapDist_eq_zero_iff h.vr_lt h.vr_lt).mpr rfl]
    exact h.w_pos
  told := lastSframe_sframe _ h.vr_lt
  prepared := h.prepared

theorem Within.enqueue (h : Within s) (asdu : Asdu) :
    Within { s with writeQ := s.writeQ ++ [asduBuf asdu] } := by
  refine { h with window := h.window.congr rfl rfl rfl, prepared := ?_ }
  intro b member
  rcases List.mem_append.mp member with old | new
  · exact h.prepared b old
  · obtain rfl := List.mem_singleton.mp new
    exact frameType_asduBuf asdu

theorem Within.transmit (h : Within s) {b : IecBuf} {q : List IecBuf} (queue : s.writeQ = b :: q)
    (room : s.vs ≠ (s.va + s.k) % 32767) : Within (transmitBuf { s with writeQ := q } b) := by
  obtain ⟨next, below⟩ := h.window.transmit h.k_lt room
  have info : frameType (b.stamp s.vr s.vs).wire.h ≠ .s := by
    have prepared := h.prepared b (queue ▸ List.mem_cons_self)
    change frameType ((b.h.setNr s.vr).setNs s.vs) ≠ .s
    rw [(frameType_setNs _ _).mpr (by rw [frameType_setNr]; exact prepared)]
    decide
  rw [transmitBuf_eq]
  refine { h with window := ?_, told := (lastSframe_other _ info).trans h.told, prepared := ?_ }
  · refine ⟨rfl, h.window.va_le, Nat.mod_lt _ (by decide), ?_⟩
    change wrapDist 32767 ((s.vs + 1) % 32767) s.va ≤ s.k
    omega
  · intro c member
    exact h.prepared c (queue ▸ List.mem_cons_of_mem _ member)

theorem Within.writeLoop (q : List IecBuf) (h : Within s) (queue : s.writeQ = q) :
    Within (writeLoop q s) := by
  induction q generalizing s with
  | nil => exact h
  | cons b q ih =>
    unfold Session.writeLoop
    split
    · rename_i room
      exact ih (h.transmit queue room) (by simp)
    · exact h

theorem Within.runWriteQueue (h : Within s) : Within (iecsockRunWriteQueue s) := by
  unfold iecsockRunWriteQueue
  split
  · exact h
  · exact h.writeLoop _ rfl

theorem Within.acknowledge (h : Within s) (f : Apdu) (passed : checkNr s f.h.nr = true) :
    Within { s with va := f.h.nr } :=
  { h with window := h.window.acknowledge f passed }

theorem Within.received (h : Within s) :
    let s := { s with vr := (s.vr + 1) % 32767 }
    Within (if seqDist s.vr s.vaPeer = s.w then { iecsockSframeSend s with vaPeer := s.vr }
      else s) := by
  have peer := h.peer_lt
  have owed := h.owed
  have w := h.w_lt
  have range : (s.vr + 1) % 32767 < 32767 := Nat.mod_lt _ (by decide)
  have next := wrapDist_succ h.vr_lt h.peer_lt.le (by omega)
  dsimp only
  rw [seqDist_eq (by omega), next]
  split
  · refine { h with
      window := h.window.congr rfl rfl rfl
      vr_lt := range
      peer_lt := range
      owed := ?_
      told := lastSframe_sframe _ range }
    change wrapDist 32767 ((s.vr + 1) % 32767) ((s.vr + 1) % 32767) < s.w
    rw [(wrapDist_eq_zero_iff range range).mpr rfl]
    exact h.w_pos
  · rename_i short
    refine { h with window := h.window.congr rfl rfl rfl, vr_lt := range, owed := ?_ }
    change wrapDist 32767 ((s.vr + 1) % 32767) s.vaPeer < s.w
    omega

theorem Within.other (h : Within s) (stopdt testfr t1 t2 t3 : Bool) (ackwQ : List IecBuf) :
    Within { s with
      stopdt := stopdt
      testfr := testfr
      t1Timer := t1
      t2Timer := t2
      t3Timer := t3
      ackwQ := ackwQ } :=
  h.congr rfl rfl rfl rfl rfl rfl rfl rfl

theorem Within.close (h : Within s) : Within (iecsockClose s) :=
  { h with
    window := h.window.congr rfl rfl rfl
    prepared := fun _ member => absurd member List.not_mem_nil }

end Limits

section Runs

/-- If all changes of the options were admitted, the limits have been kept whenever the application
had control, and are kept now. -/
def Sound (x : Station) : Prop :=
  (∀ c ∈ x.2.changes, Admits c.1 c.2) → Within x.1 ∧ ∀ s ∈ x.2.seen, Within s

variable {x : Station}

theorem Sound.keeps (h : Sound x) {t : Iecsock} (keeps : Within x.1 → Within t) :
    Sound (t, x.2) := by
  intro admitted
  obtain ⟨now, before⟩ := h admitted
  exact ⟨keeps now, before⟩

theorem Sound.note (h : Sound x) : Sound (note x) := by
  intro admitted
  obtain ⟨now, before⟩ := h admitted
  refine ⟨now, ?_⟩
  exact List.forall_mem_append.mpr ⟨before, List.forall_mem_singleton.mpr now⟩

theorem Sound.exec (h : Sound x) (call : AppCall) : Sound (call.exec x) := by
  cases call with
  | enqueue asdu => exact (h.keeps fun within => within.enqueue asdu).note
  | runWriteQueue => exact (h.keeps Within.runWriteQueue).note
  | setOptions opt =>
    apply Sound.note
    intro admitted
    obtain ⟨earlier, last⟩ := List.forall_mem_append.mp admitted
    obtain ⟨now, before⟩ := h earlier
    exact ⟨now.setOptions (last (x.1, opt) (List.mem_singleton_self _)), before⟩

theorem Sound.execAll (h : Sound x) (calls : List AppCall) : Sound (execAll calls x) := by
  unfold Options.execAll
  have begun := h.note
  generalize Options.note x = y at begun ⊢
  induction calls generalizing y with
  | nil => exact begun
  | cons call calls ih => exact ih _ (begun.exec call)

theorem Sound.wake (h : Sound x) (script : HookScript) : Sound (wakeIfAcked script.hooks x) := by
  unfold wakeIfAcked
  split
  · exact (h.keeps fun within => within.other _ _ false _ _ _).execAll _
  · exact h

theorem Sound.iframe (h : Sound x) (script : HookScript) (f : Apdu) :
    Sound (iecsockIframeRecv script.hooks x f).2 := by
  unfold iecsockIframeRecv
  cases passed : checkNr x.1 f.h.nr with
  | false => exact h
  | true =>
    have woken := (h.keeps fun within => within.acknowledge f passed).wake script
    simp only [Bool.not_true, Bool.false_eq_true, if_false]
    generalize wakeIfAcked script.hooks ({ x.1 with va := f.h.nr }, x.2) = y at woken ⊢
    have timed : Sound (t2TimerStart (t2TimerStop y.1), y.2) :=
      woken.keeps fun within => within.other _ _ _ true _ _
    split
    · exact timed
    · exact (timed.keeps Within.received).execAll _

theorem Sound.sframe (h : Sound x) (script : HookScript) (f : Apdu) :
    Sound (iecsockSframeRecv script.hooks x f).2 := by
  unfold iecsockSframeRecv
  cases passed : checkNr x.1 f.h.nr with
  | false => exact h
  | true =>
    have acked : Sound ({ iecsockRunAckwQueue x.1 f.h.nr with va := f.h.nr }, x.2) :=
      h.keeps fun within => (within.acknowledge f passed).other _ _ _ _ _
        (iecsockRunAckwQueue x.1 f.h.nr).ackwQ
    exact acked.wake script

theorem Sound.uframe (h : Sound x) (script : HookScript) (f : Apdu) :
    Sound (iecsockUframeRecv script.hooks x f).2 := by
  unfold iecsockUframeRecv
  cases uframeFunc f.h with
  | startact =>
    simp only
    split
    · exact h
    · have told : Sound (iecsockRunWriteQueue
          (iecsockUframeSend { x.1 with stopdt := false } .startcon), x.2) :=
        h.keeps fun within => ((within.other false _ _ _ _ _).uframe .startcon).runWriteQueue
      exact told.execAll _
  | startcon =>
    simp only
    split
    · exact h
    · exact (h.keeps fun within => within.other false _ false _ _ _).execAll _
  | stopact =>
    simp only
    split
    · exact h
    · exact (h.keeps fun within => (within.other true _ _ _ _ _).uframe .stopcon).execAll _
  | stopcon =>
    simp only
    split
    · exact h
    · exact (h.keeps fun within => within.other true _ _ _ _ _).execAll _
  | testact =>
    refine h.keeps fun within => ?_
    have told := within.uframe .testcon
    split
    · exact told.other _ _ _ _ false _
    · exact told
  | testcon =>
    simp only
    split
    · exact h
    · exact h.keeps fun within => within.other _ false false _ _ _

theorem Sound.frame (h : Sound x) (script : HookScript) (f : Apdu) :
    Sound (iecsockFrameRecv script.hooks x f).2 := by
  have heard : Sound (t3TimerStart (t3TimerStop x.1), x.2) :=
    h.keeps fun within => within.other _ _ _ _ true _
  unfold iecsockFrameRecv
  cases frameType f.h with
  | i =>
    simp only
    split
    · exact heard
    · exact heard.iframe script f
  | s => exact heard.sframe script f
  | u => exact heard.uframe script f

theorem Sound.step {y : Station} {e : Event} (h : Sound x) (taken : step x e = some y) :
    Sound y := by
  cases e with
  | app call =>
    simp only [Options.step] at taken
    split at taken
    · cases taken
    · obtain rfl := Option.some.inj taken
      exact h.exec call
  | recv f script =>
    simp only [Options.step] at taken
    split at taken
    · cases taken
    · obtain rfl := Option.some.inj taken
      have handled := h.frame script f
      unfold recvFrame
      simp only
      split
      · exact handled
      · exact handled.keeps Within.close
  | t1 =>
    simp only [Options.step] at taken
    split at taken
    · obtain rfl := Option.some.inj taken
      exact h.keeps fun within => (within.other _ _ false _ _ _).close
    · cases taken
  | t2 =>
    simp only [Options.step] at taken
    split at taken
    · obtain rfl := Option.some.inj taken
      exact h.keeps fun within => (within.other _ _ _ false _ _).sframe
    · cases taken
  | t3 =>
    simp only [Options.step] at taken
    split at taken
    · obtain rfl := Option.some.inj taken
      refine h.keeps fun within => ?_
      exact (within.other _ true true _ false _).uframe .testact
    · cases taken

/-- What the limits are for, at a moment at which the application may ask: `iecsock_can_queue` tells
no more than `k`, `iecsock_run_write_queue` stops at `k` frames to be acknowledged, and fewer than
`w` frames were received since the last S-frame. -/
structure Kept (s : Iecsock) : Prop where
  canQueue : iecsockCanQueue s ≤ s.k
  stops : s.k ≤ seqDist s.vs s.va → iecsockRunWriteQueue s = s
  window : seqDist (iecsockRunWriteQueue s).vs (iecsockRunWriteQueue s).va ≤ s.k
  received : seqDist s.vr (lastSframe s.output) < s.w

theorem writeLoop_k (q : List IecBuf) (s : Iecsock) : (writeLoop q s).k = s.k := by
  induction q generalizing s with
  | nil => rfl
  | cons b q ih =>
    unfold writeLoop
    split
    · rw [ih, transmitBuf_eq]
    · rfl

theorem Within.kept {s : Iecsock} (h : Within s) : Kept s := by
  have bound := h.window.bound
  have va := h.window.va_le
  have peer := h.peer_lt
  constructor
  · rw [canQueue_le_iff va h.k_lt, seqDist_eq va]
    exact_mod_cast bound
  · intro reached
    rw [seqDist_eq va] at reached
    have full := (h.window.full_iff h.k_lt).mpr (by omega)
    unfold iecsockRunWriteQueue
    split
    · rfl
    · cases s.writeQ with
      | nil => rfl
      | cons b q =>
        unfold Session.writeLoop
        exact if_neg (not_not.mpr full)
  · have after := h.runWriteQueue.window
    have same : (iecsockRunWriteQueue s).k = s.k := by
      unfold iecsockRunWriteQueue
      split
      · rfl
      · exact writeLoop_k _ s
    have room := after.bound
    rw [seqDist_eq after.va_le]
    omega
  · have owed := h.owed
    rw [h.told, seqDist_eq (by omega)]
    exact_mod_cast owed

/-- In every run in which every change of the options, wherever it is made, leaves room for what is
not acknowledged yet, both limits are kept whenever the application has control. -/
theorem limits_kept {s : Iecsock} (unused : Unused s) (k : s.k < 32767) (one : 1 ≤ s.w)
    (w : s.w < 32767) {x : Station} {es : List Event}
    (reached : run step (s, Record.empty) es = some x)
    (admitted : ∀ c ∈ x.2.changes, Admits c.1 c.2) :
    Kept x.1 ∧ ∀ t ∈ x.2.seen, Kept t := by
  have start : Sound (s, Record.empty) := fun _ =>
    ⟨within_of_unused unused k one w, fun _ member => absurd member List.not_mem_nil⟩
  have sound : Sound x :=
    run_invariant (I := Sound) (fun _ _ _ inv taken => inv.step taken) start reached
  obtain ⟨now, before⟩ := sound admitted
  exact ⟨now.kept, fun t member => (before t member).kept⟩

/-- A frame waits for its acknowledgement, and the window shrinks to one inside a hook. -/
theorem limits_kept_shrunk :
    ∃ x, run step (Iecsock.fresh .master, Record.empty)
        [.app (.enqueue ⟨[100], by decide⟩), .app .runWriteQueue,
          .recv (Handling.bareIframe 0 0) { data := [.setOptions ⟨2, 1⟩] }] = some x ∧
      Kept x.1 ∧ ∀ t ∈ x.2.seen, Kept t := by
  have unused : Unused (Iecsock.fresh .master) := ⟨⟨rfl, rfl, rfl, rfl⟩, rfl, rfl⟩
  have reached : run step (Iecsock.fresh .master, Record.empty)
      [.app (.enqueue ⟨[100], by decide⟩), .app .runWriteQueue,
        .recv (Handling.bareIframe 0 0) { data := [.setOptions ⟨2, 1⟩] }] = some _ := rfl
  refine ⟨_, reached, limits_kept unused (by decide) (by decide) (by decide) reached ?_⟩
  intro c member
  obtain rfl := List.mem_singleton.mp member
  constructor
  all_goals decide

/-- Three frames wait when `k` becomes two: `iecsock_can_queue` wraps and a fourth frame leaves.
Two frames were received when `w` becomes two: the third one is not acknowledged either. -/
theorem limits_passed :
    (∃ x y, run step (Iecsock.fresh .master, Record.empty)
          ([.app (.enqueue ⟨[1], by decide⟩), .app (.enqueue ⟨[2], by decide⟩),
            .app (.enqueue ⟨[3], by decide⟩), .app .runWriteQueue,
            .app (.setOptions ⟨8, 2⟩)]) = some x ∧
        iecsockCanQueue x.1 = 2 ^ 64 - 1 ∧ x.1.output.length = 3 ∧ ¬Kept x.1 ∧
        run step x [.app (.enqueue ⟨[4], by decide⟩), .app .runWriteQueue] = some y ∧
        y.1.output.length = 4) ∧
      ∃ x, run step (Iecsock.fresh .master, Record.empty)
          [.recv (Handling.bareIframe 0 0) { }, .recv (Handling.bareIframe 1 0) { },
            .app (.setOptions ⟨2, 12⟩), .recv (Handling.bareIframe 2 0) { }] = some x ∧
        x.1.vr = 3 ∧ x.1.output = [] := by
  refine ⟨⟨_, _, rfl, ?_, rfl, ?_, rfl, rfl⟩, _, rfl, rfl, rfl⟩
  · decide
  · intro kept
    exact absurd kept.canQueue (by decide)

end Runs

end IecUtils.Link.Options
