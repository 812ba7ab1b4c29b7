/- Module: IecUtils/Link/StandardPeer
   source: ieclink/iecsock.c against a station that numbers frames modulo 2^15
   digest: A peer that uses the whole fifteen-bit field is served up to frame 32767 and no further. -/

import IecUtils.Link.Duplex

set_option autoImplicit false
set_option relaxedAutoImplicit false

namespace IecUtils.Link.StandardPeer

open IecUtils.Foundation.SequenceNumber
open IecUtils.Foundation.Transition
open IecUtils.Link.Frame
open IecUtils.Link.Session
open IecUtils.Link.Endpoint
open IecUtils.Link.SendWindow
open IecUtils.Link.Duplex

/-- The other station, with its unbounded counters: information frames it has
sent, taken and seen acknowledged. On the wire each goes modulo 2^15. -/
structure Peer where
  stopdt : Bool
  sent : Nat
  got : Nat
  acked : Nat

/-- How a control frame moves the transfer state that STARTDT and STOPDT govern. -/
def requested (stopdt : Bool) (f : Apdu) : Bool :=
  if frameType f.h = .u then
    match uframeFunc f.h with
    | .startact => false
    | .stopact => true
    | _ => stopdt
  else stopdt

/-- An acknowledgement is read as the first count from `acked` on that has its
residue; one beyond what was sent is an error, and the peer gives up. -/
def Peer.acknowledged (p : Peer) (nr : Nat) : Option Peer :=
  let n := p.acked + (nr + 32768 - p.acked % 32768) % 32768
  if n ≤ p.sent then some { p with acked := n } else none

def Peer.take (p : Peer) (f : Apdu) : Option Peer :=
  match frameType f.h with
  | .u => some p
  | .s => p.acknowledged f.h.nr
  | .i =>
      if f.h.ns = p.got % 32768 then
        (p.acknowledged f.h.nr).map fun q => { q with got := q.got + 1 }
      else none

/-- A session, its peer, and the frames on their way to the session. -/
structure PeerLink where
  us : Station
  peer : Peer
  inbound : List Apdu

/-- The peer of a slave decides when transfer starts; the peer of a master is told. -/
def PeerLink.controlling (d : PeerLink) : Bool := d.us.1.type == .slave

inductive PeerEvent where
  | act (act : Act)
  | info (asdu : Asdu)
  | super
  | control (func : UframeFunc)
  | take
  | deliver (script : HookScript)

/-- The peer sends information frames only in the started state and keeps at most
`window` of them unacknowledged. -/
def peerStep (window : Nat) (d : PeerLink) : PeerEvent → Option PeerLink
  | .act act => (step d.us act.event).map fun x => { d with us := x }
  | .info asdu =>
      if d.peer.stopdt = false ∧ d.peer.sent - d.peer.acked < window then
        some { d with
          peer := { d.peer with sent := d.peer.sent + 1 }
          inbound := d.inbound ++
            [((asduBuf asdu).stamp (d.peer.got % 32768) (d.peer.sent % 32768)).wire] }
      else none
  | .super =>
      some { d with inbound := d.inbound ++ [⟨sframeHdr (d.peer.got % 32768), []⟩] }
  | .control func =>
      let f : Apdu := ⟨uframeHdr func, []⟩
      some { d with
        peer := { d.peer with
          stopdt := if d.controlling then requested d.peer.stopdt f else d.peer.stopdt }
        inbound := d.inbound ++ [f] }
  | .take =>
      match d.us.1.output with
      | [] => none
      | f :: rest =>
          (d.peer.take f).map fun p =>
            { d with
              us := ({ d.us.1 with output := rest }, d.us.2)
              peer := { p with
                stopdt := if d.controlling then p.stopdt else requested p.stopdt f } }
  | .deliver script =>
      match d.inbound with
      | [] => none
      | f :: rest =>
          if d.us.1.closed then none
          else some { d with us := recvFrame script d.us f, inbound := rest }

/-- A session whose connection has just been made: a master has sent its request,
a slave waits for one. -/
def peerStart (type : IecType) (opt : IecsockOptions) : PeerLink where
  us :=
    let s := iecsockSetOptions (Iecsock.fresh type) opt
    (if type = .master then connectWritecb s else s, AppLog.empty)
  peer := ⟨true, 0, 0, 0⟩
  inbound := []

def PeerLink.sentFrames (d : PeerLink) : Nat :=
  d.peer.got + (infoFrames d.us.1.output).length

/-- What the peer is entitled to: its next frame is taken if it carries numbers,
and the numbers on their way to it are the ones it expects. -/
def Served (d : PeerLink) : Prop :=
  (∀ (script : HookScript) (f : Apdu) (rest : List Apdu), d.inbound = f :: rest →
    frameType f.h ≠ .u → (iecsockFrameRecv script.hooks d.us f).1 = 0) ∧
  (infoFrames d.us.1.output).map (fun f => f.h.ns) =
    consecutive 32768 d.peer.got (infoFrames d.us.1.output).length

def Admitted : Bool → List Apdu → Bool → Prop
  | now, [], final => now = final
  | now, f :: rest, final =>
      (frameType f.h = .i → now = false) ∧ Admitted (requested now f) rest final

private theorem Admitted.snoc {now final : Bool} {out : List Apdu} {f : Apdu}
    (h : Admitted now out final) (started : frameType f.h = .i → final = false) :
    Admitted now (out ++ [f]) (requested final f) := by
  induction out generalizing now with
  | nil =>
    obtain rfl : now = final := h
    exact ⟨started, rfl⟩
  | cons g rest ih => exact ⟨h.1, ih h.2⟩

/-- The counters of both sides and every number under way. The session reduces
its own modulo 32767, so neither side gets past frame 32767 of the other. -/
structure Carried (type : IecType) (k : Nat) (d : PeerLink) (ack : Nat) : Prop where
  option : d.us.1.k % 32767 = k
  proper : Proper type d.us
  vs : d.us.1.vs = d.sentFrames % 32767
  numbers : sendNumbers d.us.1.output =
    consecutive 32767 d.peer.got (infoFrames d.us.1.output).length
  got_le : d.peer.got ≤ 32767
  vr : d.us.1.vr = d.us.2.delivered.length % 32767
  delivered_le : d.us.2.delivered.length ≤ 32767
  inbound : sendNumbers d.inbound =
    consecutive 32768 d.us.2.delivered.length (infoFrames d.inbound).length
  sent : d.us.2.delivered.length + (infoFrames d.inbound).length = d.peer.sent
  va : d.us.1.va = ack
  acks : Climbs 32768 ack (ackNumbers d.inbound) d.peer.got
  window : d.sentFrames ≤ ack + k
  gate : type = .slave → Admitted d.us.1.stopdt d.inbound d.peer.stopdt

section Carried

variable {type : IecType} {k ack : Nat} {d : PeerLink}

private theorem Carried.narrow (h : Carried type k d ack) : k < 32767 := by
  rw [← h.option]
  exact Nat.mod_lt _ (by decide)

private theorem Carried.window_sound (h : Carried type k d ack) :
    wrapDist 32767 d.us.1.vs d.us.1.va = d.sentFrames - ack := by
  have climbed := h.acks.le
  have window := h.window
  have bound := h.got_le
  have narrow := h.narrow
  have sent : d.peer.got ≤ d.sentFrames := Nat.le_add_right _ _
  rw [h.vs, h.va]
  exact wrapDist_mod_of_le (by omega) (by omega) (by omega)

private theorem Carried.local {x : Station} (h : Carried type k d ack)
    (l : Local d.us x) : Carried type k { d with us := x } ack := by
  have proper := h.proper.local l
  cases l with
  | enqueue asdu => exact { h with proper := proper }
  | @transmit b q queue opened room =>
    obtain ⟨asdu, rfl⟩ := h.proper.prepared b (by rw [queue]; exact List.mem_cons_self)
    obtain ⟨flight, numbers, _⟩ := channel_iframe asdu d.us.1.vr d.us.1.vs
    have one : (infoFrames [((asduBuf asdu).stamp d.us.1.vr d.us.1.vs).wire]).length = 1 := by
      rw [← inFlight_length, flight, List.length_singleton]
    have climbed := h.acks.le
    have bound := h.got_le
    have window := h.window
    have spaced : d.sentFrames - ack ≠ k := by
      intro full
      apply room
      rw [← Nat.add_mod_mod, h.option,
        eq_add_mod_iff (by rw [h.vs]; exact Nat.mod_lt _ (by decide)) (by rw [h.va]; omega) h.narrow,
        h.window_sound]
      exact full
    have count : PeerLink.sentFrames { d with us :=
        (transmitBuf { d.us.1 with writeQ := q } (asduBuf asdu), d.us.2) } =
        d.sentFrames + 1 := by
      simp only [PeerLink.sentFrames, transmitBuf_eq, infoFrames_append, List.length_append, one]
      omega
    refine { h with
      proper := proper
      option := ?_
      vs := ?_
      numbers := ?_
      vr := ?_
      va := ?_
      window := ?_
      gate := ?_ }
    · simpa using h.option
    · rw [count]
      simp only [transmitBuf_eq]
      rw [h.vs, Nat.mod_add_mod]
    · simp only [transmitBuf_eq, infoFrames_append, sendNumbers_append, List.length_append, one,
        numbers]
      rw [consecutive_snoc, h.numbers, h.vs, mod_field]
      rfl
    · simpa using h.vr
    · simpa using h.va
    · rw [count]
      have reached : d.peer.got ≤ d.sentFrames := Nat.le_add_right _ _
      omega
    · simpa using h.gate
  | sframe =>
    have none : infoFrames [⟨sframeHdr d.us.1.vr, []⟩] = [] := by simp [infoFrames]
    obtain ⟨_, numbers, _⟩ := channel_sframe d.us.1.vr
    exact { h with
      proper := proper
      vs := by simpa [iecsockSframeSend, PeerLink.sentFrames, none] using h.vs
      numbers := by simpa [iecsockSframeSend, numbers, none] using h.numbers
      window := by simpa [iecsockSframeSend, PeerLink.sentFrames, none] using h.window }
  | retime t1 t2 t3 => exact { h with proper := proper }

private theorem Carried.locals {x : Station} (h : Carried type k d ack)
    (ls : Locals d.us x) : Carried type k { d with us := x } ack := by
  induction ls with
  | refl => exact h
  | tail _ last ih => exact ih.local last

private theorem Carried.acknowledge (h : Carried type k d ack) {f : Apdu}
    {rest : List Apdu} (head : d.inbound = f :: rest) (bearing : frameType f.h ≠ .u) :
    checkNr d.us.1 f.h.nr = true ∧
      Carried type k { d with us := acknowledge d.us f.h.nr } f.h.nr := by
  have acks := h.acks
  have shape : ackNumbers (f :: rest) = f.h.nr :: ackNumbers rest := by
    simp [ackNumbers, bearing]
  rw [head, shape] at acks
  obtain ⟨n, climbed, residue, later⟩ := acks
  have received := later.le
  have bound := h.got_le
  have window := h.window
  have narrow := h.narrow
  have sent : d.peer.got ≤ d.sentFrames := Nat.le_add_right _ _
  have exact : f.h.nr = n := by
    rw [residue]
    exact Nat.mod_eq_of_lt (by omega)
  have ahead : wrapDist 32767 n ack = n - ack := by
    rcases Nat.lt_or_ge n 32767 with lt | ge
    · have plain := wrapDist_mod_of_le (M := 32767) (a := ack) (b := n) (by omega) climbed (by omega)
      rwa [Nat.mod_eq_of_lt lt] at plain
    · obtain rfl : n = 32767 := by omega
      rw [wrapDist_alias]
      exact wrapDist_mod_of_le (M := 32767) (b := 32767) (by omega) climbed (by omega)
  refine ⟨?_, ?_⟩
  · rw [checkNr_eq (by rw [h.va]; omega), h.window_sound, exact, h.va, ahead]
    omega
  · refine { h with proper := { h.proper with }, va := rfl, acks := ?_, window := ?_ }
    · rw [head, shape]
      exact ⟨n, by omega, residue, later⟩
    · have same : PeerLink.sentFrames { d with us := Endpoint.acknowledge d.us f.h.nr } =
          d.sentFrames := rfl
      omega

/-- The next information frame of the peer is in sequence for it; for the session
it is so as long as fewer than 32767 came before. -/
private theorem Carried.in_sequence (h : Carried type k d ack) {f : Apdu} {rest : List Apdu}
    (head : d.inbound = f :: rest) (info : frameType f.h = .i) :
    f.h.ns = d.us.1.vr ↔ d.us.2.delivered.length < 32767 := by
  obtain ⟨_, numbers⟩ := inFlight_cons_info rest info
  have sequence := h.inbound
  have bound := h.delivered_le
  rw [head, numbers] at sequence
  have count : (infoFrames (f :: rest)).length = (infoFrames rest).length + 1 := by
    simp [infoFrames, info]
  rw [count, consecutive_succ] at sequence
  have first := (List.cons.inj sequence).1
  rw [first, h.vr]
  omega

private theorem Carried.pop (h : Carried type k d ack) {f : Apdu} {rest : List Apdu}
    (head : d.inbound = f :: rest) (other : frameType f.h ≠ .i) (stopdt : Bool)
    (follows : type = .slave → stopdt = requested d.us.1.stopdt f) :
    Carried type k { d with
      us := ({ d.us.1 with stopdt := stopdt }, d.us.2)
      inbound := rest } ack := by
  obtain ⟨_, numbers⟩ := inFlight_cons_other rest other
  have count : infoFrames (f :: rest) = infoFrames rest := by
    simp [infoFrames, other]
  have sequence := h.inbound
  have sent := h.sent
  have acks := h.acks
  have gate := h.gate
  rw [head] at sequence sent acks gate
  rw [numbers, count] at sequence
  rw [count] at sent
  refine { h with
    proper := { h.proper with }
    inbound := sequence
    sent := sent
    acks := ?_
    gate := fun slave => ?_ }
  · by_cases control : frameType f.h = .u
    · simpa [ackNumbers, control] using acks
    · have shape : ackNumbers (f :: rest) = f.h.nr :: ackNumbers rest := by
        simp [ackNumbers, control]
      rw [shape] at acks
      obtain ⟨n, climbed, _, later⟩ := acks
      exact later.weaken climbed
  · have admitted := (gate slave).2
    rw [← follows slave] at admitted
    exact admitted

private theorem Carried.accept (h : Carried type k d ack) {f : Apdu} {rest : List Apdu}
    (head : d.inbound = f :: rest) (info : frameType f.h = .i)
    (early : d.us.2.delivered.length < 32767) :
    Carried type k { d with us := Endpoint.accept d.us f, inbound := rest } ack := by
  obtain ⟨_, numbers⟩ := inFlight_cons_info rest info
  have count : (infoFrames (f :: rest)).length = (infoFrames rest).length + 1 := by
    simp [infoFrames, info]
  have sequence := h.inbound
  have sent := h.sent
  have acks := h.acks
  have gate := h.gate
  have shape : ackNumbers (f :: rest) = f.h.nr :: ackNumbers rest := by
    simp [ackNumbers, info]
  rw [head] at sequence sent acks gate
  rw [numbers, count, consecutive_succ] at sequence
  rw [count] at sent
  rw [shape] at acks
  obtain ⟨n, climbed, _, later⟩ := acks
  have length : (Endpoint.accept d.us f).2.delivered.length = d.us.2.delivered.length + 1 := by
    simp [Endpoint.accept]
  refine { h with
    proper := { h.proper with }
    vr := ?_
    delivered_le := ?_
    inbound := ?_
    sent := ?_
    acks := later.weaken climbed
    gate := ?_ }
  · rw [length]
    simp only [Endpoint.accept]
    rw [h.vr, Nat.mod_add_mod]
  · rw [length]
    omega
  · rw [length]
    exact (List.cons.inj sequence).2
  · rw [length]
    simp only
    omega
  · intro slave
    simpa [requested, info, Endpoint.accept] using (gate slave).2

private theorem Carried.uframe (h : Carried type k d ack) (func : UframeFunc)
    (other : func ≠ .stopact) :
    Carried type k { d with us := (iecsockUframeSend d.us.1 func, d.us.2) } ack := by
  have none : infoFrames [⟨uframeHdr func, []⟩] = [] := by simp [infoFrames]
  obtain ⟨_, numbers, _⟩ := channel_control func
  exact { h with
    proper := h.proper.uframe func other
    vs := by simpa [iecsockUframeSend, PeerLink.sentFrames, none] using h.vs
    numbers := by simpa [iecsockUframeSend, numbers, none] using h.numbers
    window := by simpa [iecsockUframeSend, PeerLink.sentFrames, none] using h.window }

private theorem Carried.flags (h : Carried type k d ack) (testfr t1 t2 t3 : Bool) :
    Carried type k { d with us := ({ d.us.1 with
      testfr := testfr
      t1Timer := t1
      t2Timer := t2
      t3Timer := t3 }, d.us.2) } ack :=
  { h with proper := { h.proper with } }

private theorem Carried.control (h : Carried type k d ack) {f : Apdu} {rest : List Apdu}
    (head : d.inbound = f :: rest) (control : frameType f.h = .u) {s : Iecsock}
    (does : Control d.us.1 (uframeFunc f.h) s) :
    Carried type k { d with us := (s, d.us.2), inbound := rest } ack := by
  have other : frameType f.h ≠ .i := by simp [control]
  have master (side : d.us.1.type = .master) : type ≠ .slave := by
    rw [← h.proper.type, side]
    decide
  generalize asked : uframeFunc f.h = func at does
  cases does with
  | startact _ =>
    have popped := h.pop head other false fun _ => by simp [requested, control, asked]
    exact popped.uframe .startcon (by decide)
  | startcon side =>
    have popped := h.pop head other false fun slave => absurd slave (master side)
    exact popped.flags d.us.1.testfr false d.us.1.t2Timer d.us.1.t3Timer
  | stopact _ =>
    have popped := h.pop head other true fun _ => by simp [requested, control, asked]
    exact popped.uframe .stopcon (by decide)
  | stopcon side => exact h.pop head other true fun slave => absurd slave (master side)
  | testact =>
    have popped := h.pop head other d.us.1.stopdt fun _ => by
      simp [requested, control, asked]
    exact popped.uframe .testcon (by decide)
  | testcon _ =>
    have popped := h.pop head other d.us.1.stopdt fun _ => by
      simp [requested, control, asked]
    exact popped.flags false false d.us.1.t2Timer d.us.1.t3Timer

/-- The session takes the frame at the head of the channel. A frame with numbers
is refused in one case only, and what it takes leaves everything in order. -/
private theorem Carried.received (h : Carried type k d ack) {f : Apdu} {rest : List Apdu}
    (head : d.inbound = f :: rest) {r : Int} {x : Station} (happens : Received d.us f r x) :
    (frameType f.h ≠ .u →
      (r = 0 ↔ (frameType f.h = .i → d.us.2.delivered.length < 32767))) ∧
      (r = 0 → ∃ n, Carried type k { d with us := x, inbound := rest } n) := by
  have early := h.flags d.us.1.testfr d.us.1.t1Timer d.us.1.t2Timer true
  cases happens with
  | ignored info gate =>
    have stopped := (head ▸ h.gate (h.proper.type.symm.trans gate.1)).1 info
    exact absurd (gate.2.symm.trans stopped) (by decide)
  | badNr bearing rejected =>
    have passed := (h.acknowledge head bearing).1
    exact absurd (rejected.symm.trans passed) (by decide)
  | badNs info _ _ skipped =>
    have late : ¬ d.us.2.delivered.length < 32767 := fun early =>
      skipped ((h.in_sequence head info).mpr early)
    refine ⟨fun _ => ⟨fun impossible => ?_, fun inTime => absurd (inTime info) late⟩, fun impossible => ?_⟩
    · cases impossible
    · cases impossible
  | @iframe y _ info _ passed before next after =>
    have inTime := (h.in_sequence head info).mp next
    refine ⟨fun _ => ⟨fun _ _ => inTime, fun _ => rfl⟩, fun _ => ⟨f.h.nr, ?_⟩⟩
    have acked := (early.acknowledge (f := f) head (by simp [info])).2
    have middle := acked.locals before
    have same : y.2.delivered = d.us.2.delivered := before.same.delivered
    have handed := middle.accept head info (by rw [same]; exact inTime)
    exact handed.locals after
  | sframe super passed before =>
    refine ⟨fun _ => ⟨fun _ info => ?_, fun _ => rfl⟩, fun _ => ⟨f.h.nr, ?_⟩⟩
    · exact absurd (super.symm.trans info) (by decide)
    · have acked := (early.acknowledge (f := f) head (by simp [super])).2
      have trimmed : Carried type k { d with us := acknowledgeTrim (heard d.us) f.h.nr } f.h.nr :=
        { acked with proper := { acked.proper with } }
      have taken := trimmed.pop head (by simp [super]) d.us.1.stopdt fun _ => by
        simp [requested, super, acknowledgeTrim, heard, iecsockRunAckwQueue, t3TimerStart,
          t3TimerStop]
      exact taken.locals before
  | badControl control =>
    refine ⟨fun bearing => (bearing control).elim, fun impossible => ?_⟩
    cases impossible
  | control control does after =>
    refine ⟨fun bearing => (bearing control).elim, fun _ => ⟨ack, ?_⟩⟩
    exact (early.control head control does).locals after

private theorem Carried.act (h : Carried type k d ack) {act : Act} {x : Station}
    (happens : step d.us act.event = some x) (opened : x.1.closed = false) :
    Carried type k { d with us := x } ack := by
  cases act with
  | call c =>
    simp only [Act.event, step] at happens
    split at happens
    · cases happens
    · obtain rfl := Option.some.inj happens
      exact h.locals (exec_locals d.us c)
  | t1 =>
    simp only [Act.event, step] at happens
    split at happens
    · obtain rfl := Option.some.inj happens
      cases opened
    · cases happens
  | t2 =>
    simp only [Act.event, step] at happens
    split at happens
    · obtain rfl := Option.some.inj happens
      have fired := h.local (.retime d.us d.us.1.t1Timer false d.us.1.t3Timer)
      exact fired.local (.sframe _)
    · cases happens
  | t3 =>
    simp only [Act.event, step] at happens
    split at happens
    · obtain rfl := Option.some.inj happens
      have fired := h.flags true true d.us.1.t2Timer false
      exact fired.uframe .testact (by decide)
    · cases happens

private theorem acknowledged_keeps {p q : Peer} {nr : Nat} (read : p.acknowledged nr = some q) :
    q.sent = p.sent ∧ q.got = p.got ∧ q.stopdt = p.stopdt := by
  unfold Peer.acknowledged at read
  simp only at read
  split at read
  · obtain rfl := Option.some.inj read
    exact ⟨rfl, rfl, rfl⟩
  · cases read

private theorem take_keeps {p q : Peer} {f : Apdu} (other : frameType f.h ≠ .i)
    (takes : p.take f = some q) : q.sent = p.sent ∧ q.got = p.got ∧ q.stopdt = p.stopdt := by
  unfold Peer.take at takes
  cases kind : frameType f.h with
  | i => exact absurd kind other
  | s =>
    simp only [kind] at takes
    exact acknowledged_keeps takes
  | u =>
    simp only [kind] at takes
    obtain rfl := Option.some.inj takes
    exact ⟨rfl, rfl, rfl⟩

/-- An information frame of the session reaches the peer: only frame 32767 is one
it refuses. -/
private theorem Carried.takenInfo (h : Carried type k d ack) {f : Apdu} {rest : List Apdu}
    (head : d.us.1.output = f :: rest) (info : frameType f.h = .i) {p : Peer}
    (takes : d.peer.take f = some p) {stopdt : Bool} (follows : type = .slave → stopdt = p.stopdt) :
    Carried type k { d with
      us := ({ d.us.1 with output := rest }, d.us.2)
      peer := { p with stopdt := stopdt } } ack := by
  have numbers := h.numbers
  have sent := h.vs
  have window := h.window
  have bound := h.got_le
  have count : (infoFrames (f :: rest)).length = (infoFrames rest).length + 1 := by
    simp [infoFrames, info]
  simp only [PeerLink.sentFrames, head] at sent window
  rw [count] at sent window
  rw [head, count, (inFlight_cons_info rest info).2, consecutive_succ] at numbers
  obtain ⟨first, others⟩ := List.cons.inj numbers
  simp only [Peer.take, info] at takes
  split at takes
  · rename_i expected
    obtain ⟨q, read, rfl⟩ := Option.map_eq_some_iff.mp takes
    obtain ⟨sentSame, gotSame, stopSame⟩ := acknowledged_keeps read
    have inTime : d.peer.got < 32767 := by
      rw [first] at expected
      omega
    refine { h with
      proper := h.proper.popped head
      vs := ?_
      numbers := ?_
      got_le := ?_
      sent := ?_
      acks := ?_
      window := ?_
      gate := fun slave => ?_ }
    · simp only [PeerLink.sentFrames, gotSame]
      rw [sent]
      congr 1
      omega
    · simpa [gotSame] using others
    · simp only [gotSame]
      omega
    · simpa [sentSame] using h.sent
    · simp only [gotSame]
      exact h.acks.mono (Nat.le_succ _)
    · simp only [PeerLink.sentFrames, gotSame]
      omega
    · simpa [follows slave, stopSame] using h.gate slave
  · cases takes

private theorem Carried.takenOther (h : Carried type k d ack) {f : Apdu} {rest : List Apdu}
    (head : d.us.1.output = f :: rest) (other : frameType f.h ≠ .i) {p : Peer}
    (takes : d.peer.take f = some p) {stopdt : Bool} (follows : type = .slave → stopdt = p.stopdt) :
    Carried type k { d with
      us := ({ d.us.1 with output := rest }, d.us.2)
      peer := { p with stopdt := stopdt } } ack := by
  have numbers := h.numbers
  have sent := h.vs
  have window := h.window
  have count : infoFrames (f :: rest) = infoFrames rest := by
    simp [infoFrames, other]
  simp only [PeerLink.sentFrames, head, count] at sent window
  rw [head, count, (inFlight_cons_other rest other).2] at numbers
  obtain ⟨sentSame, gotSame, stopSame⟩ := take_keeps other takes
  refine { h with
    proper := h.proper.popped head
    vs := ?_
    numbers := ?_
    got_le := ?_
    sent := ?_
    acks := ?_
    window := ?_
    gate := fun slave => ?_ }
  · simpa [PeerLink.sentFrames, gotSame] using sent
  · simpa [gotSame] using numbers
  · simpa [gotSame] using h.got_le
  · simpa [sentSame] using h.sent
  · simpa [gotSame] using h.acks
  · simpa [PeerLink.sentFrames, gotSame] using window
  · simpa [follows slave, stopSame] using h.gate slave

private theorem Carried.taken (h : Carried type k d ack) {f : Apdu} {rest : List Apdu}
    (head : d.us.1.output = f :: rest) {p : Peer} (takes : d.peer.take f = some p)
    {stopdt : Bool} (follows : type = .slave → stopdt = p.stopdt) :
    Carried type k { d with
      us := ({ d.us.1 with output := rest }, d.us.2)
      peer := { p with stopdt := stopdt } } ack := by
  by_cases info : frameType f.h = .i
  · exact h.takenInfo head info takes follows
  · exact h.takenOther head info takes follows

private theorem Carried.info (h : Carried type k d ack) (asdu : Asdu)
    (started : d.peer.stopdt = false) :
    Carried type k { d with
      peer := { d.peer with sent := d.peer.sent + 1 }
      inbound := d.inbound ++
        [((asduBuf asdu).stamp (d.peer.got % 32768) (d.peer.sent % 32768)).wire] } ack := by
  obtain ⟨flight, numbers, acks⟩ :=
    channel_iframe asdu (d.peer.got % 32768) (d.peer.sent % 32768)
  have sent := h.sent
  have kind : frameType
      ((asduBuf asdu).stamp (d.peer.got % 32768) (d.peer.sent % 32768)).wire.h = .i := by
    by_contra other
    simp [inFlight, infoFrames, other] at flight
  have one : (infoFrames
      [((asduBuf asdu).stamp (d.peer.got % 32768) (d.peer.sent % 32768)).wire]).length = 1 := by
    rw [← inFlight_length, flight, List.length_singleton]
  refine { h with inbound := ?_, sent := ?_, acks := ?_, gate := fun slave => ?_ }
  · simp only [sendNumbers_append, infoFrames_append, List.length_append, one, numbers]
    rw [consecutive_snoc, h.inbound, h.sent, Nat.mod_mod]
  · simp only [infoFrames_append, List.length_append, one]
    omega
  · simp only [ackNumbers_append, acks, Nat.mod_mod]
    exact h.acks.snoc
  · have admitted := (h.gate slave).snoc (fun _ => started) (f :=
      ((asduBuf asdu).stamp (d.peer.got % 32768) (d.peer.sent % 32768)).wire)
    rw [requested, if_neg (by rw [kind]; decide)] at admitted
    exact admitted

private theorem Carried.super (h : Carried type k d ack) :
    Carried type k { d with inbound :=
      d.inbound ++ [⟨sframeHdr (d.peer.got % 32768), []⟩] } ack := by
  obtain ⟨_, numbers, acks⟩ := channel_sframe (d.peer.got % 32768)
  have none : infoFrames [⟨sframeHdr (d.peer.got % 32768), []⟩] = [] := by simp [infoFrames]
  refine { h with inbound := ?_, sent := ?_, acks := ?_, gate := fun slave => ?_ }
  · simpa [numbers, none] using h.inbound
  · simpa [none] using h.sent
  · simp only [ackNumbers_append, acks, Nat.mod_mod]
    exact h.acks.snoc
  · simpa [requested] using (h.gate slave).snoc (f := ⟨sframeHdr (d.peer.got % 32768), []⟩)
      (by simp)

private theorem Carried.request (h : Carried type k d ack) (func : UframeFunc) {stopdt : Bool}
    (follows : type = .slave → stopdt = requested d.peer.stopdt ⟨uframeHdr func, []⟩) :
    Carried type k { d with
      peer := { d.peer with stopdt := stopdt }
      inbound := d.inbound ++ [⟨uframeHdr func, []⟩] } ack := by
  obtain ⟨_, numbers, acks⟩ := channel_control func
  have none : infoFrames [⟨uframeHdr func, []⟩] = [] := by simp [infoFrames]
  refine { h with inbound := ?_, sent := ?_, acks := ?_, gate := fun slave => ?_ }
  · simpa [numbers, none] using h.inbound
  · simpa [none] using h.sent
  · simpa [acks] using h.acks
  · simp only [follows slave]
    exact (h.gate slave).snoc (by simp)

end Carried

section Run

variable {type : IecType} {window k : Nat} {d d' : PeerLink}

private theorem closed_recv {script : HookScript} {f : Apdu} {x : Station}
    (opened : (recvFrame script x f).1.closed = false) :
    (iecsockFrameRecv script.hooks x f).1 = 0 ∧
      recvFrame script x f = (iecsockFrameRecv script.hooks x f).2 := by
  unfold recvFrame at opened ⊢
  simp only at opened ⊢
  split_ifs at opened ⊢ with taken
  · exact ⟨taken, rfl⟩
  · cases opened

private theorem closed_act {act : Act} {x y : Station} (closed : x.1.closed = true)
    (happens : step x act.event = some y) : y.1.closed = true := by
  cases act with
  | call c => simp [Act.event, step, closed] at happens
  | t1 =>
    simp only [Act.event, step] at happens
    split at happens
    · obtain rfl := Option.some.inj happens
      rfl
    · cases happens
  | t2 =>
    simp only [Act.event, step] at happens
    split at happens
    · obtain rfl := Option.some.inj happens
      exact closed
    · cases happens
  | t3 =>
    simp only [Act.event, step] at happens
    split at happens
    · obtain rfl := Option.some.inj happens
      exact closed
    · cases happens

def InStep (type : IecType) (k : Nat) (d : PeerLink) : Prop :=
  d.us.1.closed = false → ∃ ack, Carried type k d ack

private theorem peerStep_inStep {e : PeerEvent} (h : InStep type k d)
    (happens : peerStep window d e = some d') : InStep type k d' := by
  intro opened
  cases e with
  | act act =>
    obtain ⟨x, stepped, rfl⟩ := Option.map_eq_some_iff.mp happens
    have before : d.us.1.closed = false := by
      by_contra shut
      have closed := closed_act (by simpa using shut) stepped
      exact absurd (closed.symm.trans opened) (by decide)
    obtain ⟨ack, carried⟩ := h before
    exact ⟨ack, carried.act stepped opened⟩
  | info asdu =>
    simp only [peerStep] at happens
    split at happens
    · rename_i ready
      obtain rfl := Option.some.inj happens
      obtain ⟨ack, carried⟩ := h opened
      exact ⟨ack, carried.info asdu ready.1⟩
    · cases happens
  | super =>
    obtain rfl := Option.some.inj happens
    obtain ⟨ack, carried⟩ := h opened
    exact ⟨ack, carried.super⟩
  | control func =>
    obtain rfl := Option.some.inj happens
    obtain ⟨ack, carried⟩ := h opened
    refine ⟨ack, carried.request func fun slave => ?_⟩
    simp [PeerLink.controlling, carried.proper.type, slave]
  | take =>
    simp only [peerStep] at happens
    cases head : d.us.1.output with
    | nil => simp [head] at happens
    | cons f rest =>
      simp only [head] at happens
      obtain ⟨p, takes, rfl⟩ := Option.map_eq_some_iff.mp happens
      obtain ⟨ack, carried⟩ := h opened
      refine ⟨ack, carried.taken head takes fun slave => ?_⟩
      simp [PeerLink.controlling, carried.proper.type, slave]
  | deliver script =>
    simp only [peerStep] at happens
    cases head : d.inbound with
    | nil => simp [head] at happens
    | cons f rest =>
      simp only [head] at happens
      split at happens
      · cases happens
      · rename_i before
        obtain rfl := Option.some.inj happens
        obtain ⟨ack, carried⟩ := h (by simpa using before)
        obtain ⟨taken, same⟩ := closed_recv opened
        simp only [same]
        exact (carried.received head (frame_received script d.us f)).2 taken

private theorem peerStart_inStep (type : IecType) (opt : IecsockOptions) :
    InStep type (opt.k % 32767) (peerStart type opt) := by
  intro _
  have proper : Proper type (peerStart type opt).us := by
    cases type with
    | master =>
      refine ⟨rfl, ?_, ?_⟩
      · intro b member
        cases member
      · intro f member _
        obtain rfl := List.mem_singleton.mp member
        decide
    | slave =>
      refine ⟨rfl, ?_, ?_⟩
      · intro b member
        cases member
      · intro f member
        cases member
  cases type with
  | master =>
    exact ⟨0, rfl, proper, rfl, rfl, Nat.zero_le _, rfl, Nat.zero_le _, rfl, rfl, rfl,
      Nat.le_refl 0, Nat.zero_le _, fun slave => absurd slave (by decide)⟩
  | slave =>
    exact ⟨0, rfl, proper, rfl, rfl, Nat.zero_le _, rfl, Nat.zero_le _, rfl, rfl, rfl,
      Nat.le_refl 0, Nat.zero_le _, fun _ => rfl⟩

end Run

private theorem consecutive_agree (start count : Nat) (low : start ≤ 32767) :
    consecutive 32767 start count = consecutive 32768 start count ↔ start + count ≤ 32767 := by
  induction count generalizing start with
  | zero => simpa using low
  | succ count ih =>
    rw [consecutive_succ, consecutive_succ, List.cons.injEq]
    by_cases last : start = 32767
    · subst last
      simp
    · rw [ih (start + 1) (by omega)]
      omega

private theorem Carried.served_iff {type : IecType} {k ack : Nat} {d : PeerLink}
    (carried : Carried type k d ack) :
    Served d ↔ d.sentFrames ≤ 32767 ∧
      ((d.inbound.head?.map fun f => frameType f.h) = some .i →
        d.us.2.delivered.length < 32767) := by
  have expected : (infoFrames d.us.1.output).map (fun f => f.h.ns) =
      consecutive 32768 d.peer.got (infoFrames d.us.1.output).length ↔ d.sentFrames ≤ 32767 := by
    have numbers := carried.numbers
    simp only [sendNumbers] at numbers
    rw [numbers]
    exact consecutive_agree _ _ carried.got_le
  have accepted : (∀ (script : HookScript) (f : Apdu) (rest : List Apdu),
      d.inbound = f :: rest → frameType f.h ≠ .u →
        (iecsockFrameRecv script.hooks d.us f).1 = 0) ↔
      ((d.inbound.head?.map fun f => frameType f.h) = some .i →
        d.us.2.delivered.length < 32767) := by
    cases head : d.inbound with
    | nil => simp
    | cons f rest =>
      have verdict (script : HookScript) :=
        (carried.received head (frame_received script d.us f)).1
      simp only [List.head?_cons, Option.map_some, Option.some.injEq, List.cons.injEq]
      constructor
      · intro taken info
        have bearing : frameType f.h ≠ .u := by simp [info]
        exact (verdict {} bearing).mp (taken {} f rest ⟨rfl, rfl⟩ bearing) info
      · rintro inTime script g tail ⟨rfl, rfl⟩ bearing
        exact (verdict script bearing).mpr inTime
  exact and_comm.trans (and_congr expected accepted)

private theorem run_inStep {type : IecType} {opt : IecsockOptions} {window : Nat}
    {es : List PeerEvent} {d : PeerLink}
    (reached : run (peerStep window) (peerStart type opt) es = some d) :
    InStep type (opt.k % 32767) d :=
  run_invariant (fun _ _ _ inv happens => peerStep_inStep inv happens)
    (peerStart_inStep type opt) reached

/-- In every run, for as long as the session stands: the peer is served exactly
while no more than 32767 information frames have gone out, and the frame it is
about to hand over, if it is one, does not come after 32767 others. -/
theorem standard_peer_served_iff (type : IecType) (opt : IecsockOptions) (window : Nat)
    (es : List PeerEvent) (d : PeerLink)
    (reached : run (peerStep window) (peerStart type opt) es = some d)
    (opened : d.us.1.closed = false) :
    Served d ↔ d.sentFrames ≤ 32767 ∧
      ((d.inbound.head?.map fun f => frameType f.h) = some .i →
        d.us.2.delivered.length < 32767) := by
  obtain ⟨ack, carried⟩ := run_inStep reached opened
  exact carried.served_iff

def octet : Asdu := ⟨[0x64], by decide⟩

/-- The master starts the transfer, sends one unit and the peer is about to answer. -/
theorem standard_peer_served_first :
    ∃ d, run (peerStep 12) (peerStart .master ⟨8, 12⟩)
        [.take, .control .startcon, .deliver {}, .act (.call (.enqueue octet)),
          .act (.call .runWriteQueue), .info octet] = some d ∧ Served d := by
  have reached : run (peerStep 12) (peerStart .master ⟨8, 12⟩)
      [.take, .control .startcon, .deliver {}, .act (.call (.enqueue octet)),
        .act (.call .runWriteQueue), .info octet] = some _ := rfl
  exact ⟨_, reached, (standard_peer_served_iff _ _ _ _ _ reached rfl).mpr ⟨by decide, by decide⟩⟩

section Wrap

/-- The master has taken and acknowledged `n` information frames of the peer. -/
private def steady (n : Nat) : PeerLink where
  us := ({ Iecsock.fresh .master with
    stopdt := false
    vr := n
    vaPeer := n
    t3Timer := true }, ⟨[], List.replicate n octet.bytes⟩)
  peer := ⟨false, n, 0, n⟩
  inbound := []

/-- One frame of the peer, taken and then acknowledged when the second timer fires. -/
private def lap : List PeerEvent := [.info octet, .deliver {}, .act .t2, .take]

private theorem octet_frame (ns : Nat) :
    let f := ((asduBuf octet).stamp 0 ns).wire
    frameType f.h = .i ∧ f.h.nr = 0 ∧ f.h.ns = ns % 32768 ∧ payload f = octet.bytes := by
  intro f
  obtain ⟨flight, numbers, acks⟩ := channel_iframe octet 0 ns
  have kind : frameType f.h = .i := by
    by_contra other
    simp [inFlight, infoFrames, f, other] at flight
  refine ⟨kind, ?_, ?_, ?_⟩
  · simpa [ackNumbers, f, kind] using acks
  · simpa [sendNumbers, infoFrames, f, kind] using numbers
  · simpa [inFlight, infoFrames, f, kind] using flight

private theorem steady_recv {n : Nat} (low : n < 32767) :
    recvFrame {} (steady n).us ((asduBuf octet).stamp 0 (n % 32768)).wire =
      ({ (steady n).us.1 with vr := (n + 1) % 32767, t2Timer := true },
        ⟨[], List.replicate (n + 1) octet.bytes⟩) := by
  obtain ⟨kind, nr, ns, data⟩ := octet_frame (n % 32768)
  have sequence : n % 32768 % 32768 = n := by omega
  rw [sequence] at ns
  have passed (s : Iecsock) (va : s.va = 0) : checkNr s 0 = true := by
    rw [checkNr_eq (by omega), va]
    exact Nat.zero_le _
  have spaced : ¬ seqDist ((n + 1) % 32767) n = 8 := by
    rw [seqDist_eq (by omega), wrapDist_mod_of_le (by omega) (by omega) (by omega)]
    omega
  have payload' : List.take
      (((asduBuf octet).stamp 0 (n % 32768)).wire.h.length - 4).toNat
      ((asduBuf octet).stamp 0 (n % 32768)).wire.data = octet.bytes := data
  unfold recvFrame iecsockFrameRecv
  simp [kind, iecsockIframeRecv, nr, ns, passed, wakeIfAcked, steady, Iecsock.fresh, defaultW,
    Iecsock.gated, t1TimerStop, t2TimerStart, t2TimerStop, t3TimerStart, t3TimerStop, checkNs,
    HookScript.hooks, indicate, execAll, spaced, payload', List.replicate_succ']

private theorem steady_info (n : Nat) :
    peerStep 12 (steady n) (.info octet) = some { steady n with
      peer := ⟨false, n + 1, 0, n⟩
      inbound := [((asduBuf octet).stamp 0 (n % 32768)).wire] } := by
  simp [peerStep, steady]

/-- Frame `n` has been taken and the second timer runs. -/
private def pending (n : Nat) : PeerLink where
  us := ({ (steady n).us.1 with vr := (n + 1) % 32767, t2Timer := true },
    ⟨[], List.replicate (n + 1) octet.bytes⟩)
  peer := ⟨false, n + 1, 0, n⟩
  inbound := []

private theorem steady_pending {n : Nat} (low : n < 32767) :
    run (peerStep 12) (steady n) [.info octet, .deliver {}] = some (pending n) := by
  have taken := steady_recv low
  have opened : (steady n).us.1.closed = false := rfl
  rw [run_cons, steady_info, Option.bind_some]
  simp only [run_cons, run_nil, peerStep, opened, taken]
  rfl

private theorem pending_acked {n : Nat} (low : n < 32766) :
    run (peerStep 12) (pending n) [.act .t2, .take] = some (steady (n + 1)) := by
  have counted : (n + 1) % 32767 = n + 1 := Nat.mod_eq_of_lt (by omega)
  have number : (n + 1) % 32768 = n + 1 := Nat.mod_eq_of_lt (by omega)
  have lower : n % 32768 = n := Nat.mod_eq_of_lt (by omega)
  have read : n + (n + 1 + 32768 - n) % 32768 = n + 1 := by omega
  simp [pending, Act.event, step, steady, Iecsock.fresh, t2TimerRun, iecsockSframeSend, peerStep,
    Peer.take, Peer.acknowledged, PeerLink.controlling, requested, counted, number, lower, read]

private theorem pending_info (n : Nat) :
    peerStep 12 (pending n) (.info octet) = some { pending n with
      peer := ⟨false, n + 1 + 1, 0, n⟩
      inbound := [((asduBuf octet).stamp 0 ((n + 1) % 32768)).wire] } := by
  simp [peerStep, pending]

private theorem steady_laps {n : Nat} (low : n ≤ 32766) :
    run (peerStep 12) (steady 0) (List.replicate n lap).flatten = some (steady n) := by
  induction n with
  | zero => rfl
  | succ n ih =>
    have once : run (peerStep 12) (steady n) lap = some (steady (n + 1)) := by
      have split : lap = [.info octet, .deliver {}] ++ [.act .t2, .take] := rfl
      rw [split, run_append, steady_pending (by omega), Option.bind_some, pending_acked (by omega)]
    rw [List.replicate_succ', List.flatten_append, run_append, ih (by omega), Option.bind_some,
      List.flatten_singleton, once]

/-- The peer starts, sends 32766 frames and has each acknowledged, sends one more
that is taken, and then frame 32767. -/
def pastWrap : List PeerEvent :=
  [.take, .control .startcon, .deliver {}] ++ (List.replicate 32766 lap).flatten ++
    [.info octet, .deliver {}, .info octet]

private theorem pastWrap_reached :
    run (peerStep 12) (peerStart .master ⟨8, 12⟩) pastWrap = some { pending 32766 with
      peer := ⟨false, 32768, 0, 32766⟩
      inbound := [((asduBuf octet).stamp 0 32767).wire] } := by
  have begun : run (peerStep 12) (peerStart .master ⟨8, 12⟩)
      [.take, .control .startcon, .deliver {}] = some (steady 0) := rfl
  have last : [PeerEvent.info octet, .deliver {}, .info octet] =
      [.info octet, .deliver {}] ++ [.info octet] := rfl
  rw [pastWrap, run_append, run_append, begun, Option.bind_some, steady_laps le_rfl,
    Option.bind_some, last, run_append, steady_pending (by decide), Option.bind_some, run_cons,
    pending_info]
  rfl

/-- The peer has kept to the standard all along, and its frame 32767 is refused. -/
theorem standard_peer_refused :
    ∃ d, run (peerStep 12) (peerStart .master ⟨8, 12⟩) pastWrap = some d ∧
      d.us.1.closed = false ∧ ¬ Served d := by
  refine ⟨_, pastWrap_reached, rfl, ?_⟩
  intro served
  obtain ⟨ack, carried⟩ := run_inStep pastWrap_reached rfl
  have inTime := (carried.served_iff.mp served).2
  obtain ⟨kind, _⟩ := octet_frame 32767
  have late := inTime (by simp [kind])
  have count : (pending 32766).us.2.delivered.length = 32767 := List.length_replicate
  rw [count] at late
  exact absurd late (by decide)

end Wrap

end IecUtils.Link.StandardPeer
