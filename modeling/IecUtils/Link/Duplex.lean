/- Module: IecUtils/Link/Duplex
   source: ieclink/iecsock.c
   digest: Two sessions over lossless channels deliver prefixes of what was enqueued and reject nothing. -/

import IecUtils.Link.SendWindow

set_option autoImplicit false
set_option relaxedAutoImplicit false

namespace IecUtils.Link.Duplex

open IecUtils.Foundation.SequenceNumber
open IecUtils.Foundation.Transition
open IecUtils.Link.Frame
open IecUtils.Link.Session
open IecUtils.Link.Endpoint
open IecUtils.Link.SendWindow

def infoFrames (out : List Apdu) : List Apdu := out.filter fun f => frameType f.h = .i

def inFlight (out : List Apdu) : List (List UInt8) := (infoFrames out).map payload

def sendNumbers (out : List Apdu) : List Nat := (infoFrames out).map fun f => f.h.ns

/-- The acknowledgement numbers under way; both I- and S-frames carry one. -/
def ackNumbers (out : List Apdu) : List Nat :=
  (out.filter fun f => frameType f.h ≠ .u).map fun f => f.h.nr

/-- One direction of the link, from the sender `A` to the receiver `B`. The
absolute counters behind the residues are lengths of the two applications' logs;
only `ack`, the number of frames `A` knows to be received, is a ghost. -/
structure Flow (k : Nat) (A B : Station) (ack : Nat) : Prop where
  option : A.1.k = k
  prepared : ∀ b ∈ A.1.writeQ, ∃ asdu, b = asduBuf asdu
  accounted : A.2.enqueued =
    B.2.delivered ++ inFlight A.1.output ++ A.1.writeQ.map IecBuf.data
  vs : A.1.vs = (B.2.delivered.length + (inFlight A.1.output).length) % 32767
  vr : B.1.vr = B.2.delivered.length % 32767
  numbers : sendNumbers A.1.output =
    consecutive 32767 B.2.delivered.length (inFlight A.1.output).length
  va : A.1.va = ack % 32767
  acks : Climbs 32767 ack (ackNumbers B.1.output) B.2.delivered.length
  window : B.2.delivered.length + (inFlight A.1.output).length ≤ ack + k

section Channel

@[simp] theorem infoFrames_append (out more : List Apdu) :
    infoFrames (out ++ more) = infoFrames out ++ infoFrames more := by
  simp [infoFrames]

@[simp] theorem inFlight_append (out more : List Apdu) :
    inFlight (out ++ more) = inFlight out ++ inFlight more := by
  simp [inFlight]

@[simp] theorem sendNumbers_append (out more : List Apdu) :
    sendNumbers (out ++ more) = sendNumbers out ++ sendNumbers more := by
  simp [sendNumbers]

@[simp] theorem ackNumbers_append (out more : List Apdu) :
    ackNumbers (out ++ more) = ackNumbers out ++ ackNumbers more := by
  simp [ackNumbers]

@[simp] theorem inFlight_length (out : List Apdu) :
    (inFlight out).length = (infoFrames out).length := by
  simp [inFlight]

theorem inFlight_cons_other {f : Apdu} (out : List Apdu) (other : frameType f.h ≠ .i) :
    inFlight (f :: out) = inFlight out ∧ sendNumbers (f :: out) = sendNumbers out := by
  simp [inFlight, sendNumbers, infoFrames, other]

theorem inFlight_cons_info {f : Apdu} (out : List Apdu) (info : frameType f.h = .i) :
    inFlight (f :: out) = payload f :: inFlight out ∧
      sendNumbers (f :: out) = f.h.ns :: sendNumbers out := by
  simp [inFlight, sendNumbers, infoFrames, info]

@[simp] theorem channel_control (func : UframeFunc) :
    inFlight [⟨uframeHdr func, []⟩] = [] ∧ sendNumbers [⟨uframeHdr func, []⟩] = [] ∧
      ackNumbers [⟨uframeHdr func, []⟩] = [] := by
  simp [inFlight, sendNumbers, ackNumbers, infoFrames]

@[simp] theorem channel_sframe (vr : Nat) :
    inFlight [⟨sframeHdr vr, []⟩] = [] ∧ sendNumbers [⟨sframeHdr vr, []⟩] = [] ∧
      ackNumbers [⟨sframeHdr vr, []⟩] = [vr % 32768] := by
  simp [inFlight, sendNumbers, ackNumbers, infoFrames]

theorem channel_iframe (asdu : Asdu) (vr vs : Nat) :
    let f := ((asduBuf asdu).stamp vr vs).wire
    inFlight [f] = [asdu.bytes] ∧ sendNumbers [f] = [vs % 32768] ∧
      ackNumbers [f] = [vr % 32768] := by
  intro f
  have info : frameType f.h = .i := by
    change frameType (((asduBuf asdu).h.setNr vr).setNs vs) = .i
    rw [frameType_setNs, frameType_setNr]
    exact frameType_asduBuf asdu
  have length : f.h.length = (asduBuf asdu).h.length := rfl
  have octets := length_asduBuf asdu
  have data : f.data = asdu.bytes := by
    change asdu.bytes.take ((asduBuf asdu).h.length.toNat + 2 - iechdrSize) = asdu.bytes
    apply List.take_of_length_le
    rw [octets, iechdrSize]
    omega
  have taken : payload f = asdu.bytes := by
    have bound := asdu.fits
    rw [iec104AsduMax] at bound
    rw [payload, data, length]
    apply List.take_of_length_le
    rw [UInt8.toNat_sub, octets]
    simp only [UInt8.reduceToNat]
    omega
  have ns : f.h.ns = vs % 32768 := Iechdr.ns_setNs _ _
  have nr : f.h.nr = vr % 32768 := (Iechdr.nr_setNs _ _).trans (Iechdr.nr_setNr _ _)
  simp [inFlight, sendNumbers, ackNumbers, infoFrames, info, taken, ns, nr]

end Channel

section Flow

variable {k ack : Nat} {A B : Station}

theorem mod_field (n : Nat) : n % 32767 % 32768 = n % 32767 :=
  Nat.mod_eq_of_lt (by omega)

private theorem Flow.window_sound (h : Flow k A B ack) (hk : k < 32767) :
    wrapDist 32767 A.1.vs A.1.va =
      B.2.delivered.length + (inFlight A.1.output).length - ack := by
  have climbed := h.acks.le
  have window := h.window
  rw [h.vs, h.va]
  exact wrapDist_mod (by omega) (by omega)

private theorem Flow.sender {A' : Station} (h : Flow k A B ack) (hk : k < 32767)
    (l : Local A A') : Flow k A' B ack := by
  cases l with
  | enqueue asdu =>
    refine { h with prepared := ?_, accounted := ?_ }
    · intro b member
      rcases List.mem_append.mp member with old | new
      · exact h.prepared b old
      · exact ⟨asdu, List.mem_singleton.mp new⟩
    · simp [AppCall.exec, h.accounted]
  | @transmit b q queue opened room =>
    obtain ⟨asdu, rfl⟩ := h.prepared b (by rw [queue]; exact List.mem_cons_self)
    obtain ⟨flight, numbers, _⟩ := channel_iframe asdu A.1.vr A.1.vs
    simp only [transmitBuf_eq]
    have accounted := h.accounted
    have sent := h.vs
    have spaced : wrapDist 32767 A.1.vs A.1.va ≠ k := by
      intro full
      apply room
      have climbed := h.acks.le
      rw [h.option, eq_add_mod_iff (by rw [h.vs]; exact Nat.mod_lt _ (by decide))
        (by rw [h.va]; exact (Nat.mod_lt _ (by decide)).le) hk]
      exact full
    rw [h.window_sound hk] at spaced
    have window := h.window
    refine
      { option := h.option
        prepared := fun c member => h.prepared c (by rw [queue]; exact List.mem_cons_of_mem _ member)
        accounted := ?_
        vs := ?_
        vr := h.vr
        numbers := ?_
        va := h.va
        acks := h.acks
        window := ?_ }
    · rw [accounted, queue]
      simp [flight]
    · simp only [inFlight_append, flight, List.length_append, List.length_singleton]
      rw [sent, Nat.mod_add_mod, Nat.add_assoc]
    · simp only [inFlight_append, sendNumbers_append, flight, numbers, List.length_append,
        List.length_singleton]
      rw [consecutive_snoc, h.numbers, sent, mod_field]
    · simp only [inFlight_append, flight, List.length_append, List.length_singleton]
      have climbed := h.acks.le
      omega
  | sframe =>
    obtain ⟨flight, numbers, _⟩ := channel_sframe A.1.vr
    exact { h with
      accounted := by simpa [iecsockSframeSend, flight] using h.accounted
      vs := by simpa [iecsockSframeSend, flight] using h.vs
      numbers := by simpa [iecsockSframeSend, flight, numbers] using h.numbers
      window := by simpa [iecsockSframeSend, flight] using h.window }
  | retime t1 t2 t3 => exact { h with }

private theorem Flow.receiver {B' : Station} (h : Flow k A B ack) (l : Local B B')
    (prepared : ∀ b ∈ B.1.writeQ, ∃ asdu, b = asduBuf asdu) : Flow k A B' ack := by
  have current : Climbs 32767 ack (ackNumbers B.1.output ++ [B.1.vr % 32768])
      B.2.delivered.length := by
    rw [h.vr, mod_field]
    exact h.acks.snoc
  cases l with
  | enqueue asdu => exact { h with }
  | @transmit b q queue opened room =>
    obtain ⟨asdu, rfl⟩ := prepared b (by rw [queue]; exact List.mem_cons_self)
    obtain ⟨_, _, acks⟩ := channel_iframe asdu B.1.vr B.1.vs
    exact { h with
      vr := by simpa using h.vr
      acks := by simpa [acks] using current }
  | sframe =>
    obtain ⟨_, _, acks⟩ := channel_sframe B.1.vr
    exact { h with acks := by simpa [iecsockSframeSend, acks] using current }
  | retime t1 t2 t3 => exact { h with }

private theorem Flow.acknowledge (h : Flow k A B ack) (hk : k < 32767) {f : Apdu}
    {rest : List Apdu} (head : B.1.output = f :: rest) (bearing : frameType f.h ≠ .u) :
    checkNr A.1 f.h.nr = true ∧ ∃ n, Flow k (acknowledge A f.h.nr) B n := by
  have acks := h.acks
  rw [head] at acks
  have shape : ackNumbers (f :: rest) = f.h.nr :: ackNumbers rest := by
    simp [ackNumbers, bearing]
  rw [shape] at acks
  obtain ⟨n, climbed, residue, later⟩ := acks
  have received := later.le
  have window := h.window
  have inRange : A.1.va ≤ 32767 := by
    rw [h.va]
    exact (Nat.mod_lt _ (by decide)).le
  refine ⟨?_, n, ?_⟩
  · rw [checkNr_eq inRange, h.window_sound hk, residue, h.va, wrapDist_mod climbed (by omega)]
    omega
  · refine { h with va := residue, acks := ?_, window := ?_ }
    · rw [head, shape]
      exact ⟨n, le_rfl, residue, later⟩
    · simp only [Endpoint.acknowledge]
      omega

private theorem Flow.accept (h : Flow k A B ack) {f : Apdu} {rest : List Apdu}
    (head : A.1.output = f :: rest) (info : frameType f.h = .i) :
    f.h.ns = B.1.vr ∧ Flow k ({ A.1 with output := rest }, A.2) (accept B f) ack := by
  obtain ⟨flight, numbers⟩ := inFlight_cons_info rest info
  have accounted := h.accounted
  have sent := h.vs
  have sequence := h.numbers
  have window := h.window
  rw [head, flight] at accounted sent sequence window
  rw [numbers, List.length_cons, consecutive_succ] at sequence
  obtain ⟨first, others⟩ := List.cons.inj sequence
  rw [List.length_cons] at sent window
  refine ⟨first.trans h.vr.symm, ?_⟩
  refine
    { option := h.option
      prepared := h.prepared
      accounted := by simp [Endpoint.accept, accounted]
      vs := ?_
      vr := ?_
      numbers := by simpa [Endpoint.accept] using others
      va := h.va
      acks := ?_
      window := ?_ }
  · simp only [Endpoint.accept, List.length_append, List.length_singleton]
    rw [sent]
    congr 1
    omega
  · simp only [Endpoint.accept, List.length_append, List.length_singleton]
    rw [h.vr, Nat.mod_add_mod]
  · simp only [Endpoint.accept, List.length_append, List.length_singleton]
    exact h.acks.mono (by omega)
  · simp only [Endpoint.accept, List.length_append, List.length_singleton]
    omega

private theorem Flow.popAck (h : Flow k A B ack) {f : Apdu} {rest : List Apdu}
    (head : B.1.output = f :: rest) : Flow k A ({ B.1 with output := rest }, B.2) ack := by
  have acks := h.acks
  rw [head] at acks
  refine { h with acks := ?_ }
  by_cases control : frameType f.h = .u
  · simpa [ackNumbers, control] using acks
  · have shape : ackNumbers (f :: rest) = f.h.nr :: ackNumbers rest := by
      simp [ackNumbers, control]
    rw [shape] at acks
    obtain ⟨n, climbed, _, later⟩ := acks
    exact later.weaken climbed

private theorem Flow.popOther (h : Flow k A B ack) {f : Apdu} {rest : List Apdu}
    (head : A.1.output = f :: rest) (other : frameType f.h ≠ .i) :
    Flow k ({ A.1 with output := rest }, A.2) B ack := by
  obtain ⟨flight, numbers⟩ := inFlight_cons_other rest other
  have accounted := h.accounted
  have sent := h.vs
  have sequence := h.numbers
  have window := h.window
  rw [head, flight] at accounted sent window
  rw [head, flight, numbers] at sequence
  exact { h with
    accounted := accounted
    vs := sent
    numbers := sequence
    window := window }

private theorem Flow.uframeOut (h : Flow k A B ack) (func : UframeFunc) :
    Flow k (iecsockUframeSend A.1 func, A.2) B ack := by
  obtain ⟨flight, numbers, _⟩ := channel_control func
  exact { h with
    accounted := by simpa [iecsockUframeSend, flight] using h.accounted
    vs := by simpa [iecsockUframeSend, flight] using h.vs
    numbers := by simpa [iecsockUframeSend, flight, numbers] using h.numbers
    window := by simpa [iecsockUframeSend, flight] using h.window }

private theorem Flow.uframeBack (h : Flow k A B ack) (func : UframeFunc) :
    Flow k A (iecsockUframeSend B.1 func, B.2) ack := by
  obtain ⟨_, _, acks⟩ := channel_control func
  exact { h with acks := by simpa [iecsockUframeSend, acks] using h.acks }

end Flow

def Both (k : Nat) (A B : Station) : Prop := (∃ ack, Flow k A B ack) ∧ ∃ ack, Flow k B A ack

section Both

variable {k : Nat} {A B : Station}

private theorem Both.local {A' : Station} (h : Both k A B) (hk : k < 32767) (l : Local A A') :
    Both k A' B := by
  obtain ⟨⟨m, out⟩, ⟨n, back⟩⟩ := h
  exact ⟨⟨m, out.sender hk l⟩, ⟨n, back.receiver l out.prepared⟩⟩

private theorem Both.locals {A' : Station} (h : Both k A B) (hk : k < 32767)
    (ls : Locals A A') : Both k A' B := by
  induction ls with
  | refl => exact h
  | tail _ last ih => exact ih.local hk last

private theorem Both.uframe (h : Both k A B) (func : UframeFunc) :
    Both k (iecsockUframeSend A.1 func, A.2) B := by
  obtain ⟨⟨m, out⟩, ⟨n, back⟩⟩ := h
  exact ⟨⟨m, out.uframeOut func⟩, ⟨n, back.uframeBack func⟩⟩

private theorem Both.flags (h : Both k A B) (stopdt testfr t1 : Bool) :
    Both k ({ A.1 with stopdt := stopdt, testfr := testfr, t1Timer := t1 }, A.2) B := by
  obtain ⟨⟨m, out⟩, ⟨n, back⟩⟩ := h
  exact ⟨⟨m, { out with }⟩, ⟨n, { back with }⟩⟩

private theorem Both.control {s : Iecsock} {func : UframeFunc} (h : Both k A B)
    (does : Control A.1 func s) : Both k (s, A.2) B := by
  cases does with
  | startact _ => exact (h.uframe .startcon).flags false A.1.testfr A.1.t1Timer
  | startcon _ => exact h.flags false A.1.testfr false
  | stopact _ => exact (h.uframe .stopcon).flags true A.1.testfr A.1.t1Timer
  | stopcon _ => exact h.flags true A.1.testfr A.1.t1Timer
  | testact => exact h.uframe .testcon
  | testcon _ => exact h.flags A.1.stopdt false false

private theorem Both.heard (h : Both k A B) : Both k (heard A) B := by
  obtain ⟨⟨m, out⟩, ⟨n, back⟩⟩ := h
  exact ⟨⟨m, { out with }⟩, ⟨n, { back with }⟩⟩

/-- `A` takes the frame at the head of `B`'s channel: no I- or S-frame is
rejected, and an accepted frame leaves both directions in order. -/
private theorem Both.received {A' : Station} {f : Apdu} {rest : List Apdu} {r : Int}
    (h : Both k A B) (hk : k < 32767) (head : B.1.output = f :: rest)
    (started : frameType f.h = .i → ¬ A.1.gated) (happens : Received A f r A') :
    (frameType f.h ≠ .u → r = 0) ∧
      (r = 0 → Both k A' ({ B.1 with output := rest }, B.2)) := by
  have early := h.heard
  obtain ⟨⟨m, out⟩, ⟨n, back⟩⟩ := early
  cases happens with
  | ignored info gate => exact (started info gate).elim
  | badNr bearing rejected =>
    obtain ⟨passed, _⟩ := out.acknowledge hk head bearing
    have same : checkNr (Endpoint.heard A).1 f.h.nr = checkNr A.1 f.h.nr := rfl
    rw [same, rejected] at passed
    cases passed
  | badNs info _ _ skipped => exact (skipped (back.accept head info).1).elim
  | @iframe y _ info _ passed before _ after =>
    refine ⟨fun _ => rfl, fun _ => ?_⟩
    obtain ⟨_, m', acked⟩ := out.acknowledge hk head (by simp [info])
    have middle : Both k y B :=
      Both.locals ⟨⟨m', acked⟩, ⟨n, { back with }⟩⟩ hk before
    obtain ⟨⟨m', out'⟩, ⟨n', back'⟩⟩ := middle
    have handed : Both k (accept y f) ({ B.1 with output := rest }, B.2) :=
      ⟨⟨m', { out'.popAck head with }⟩, ⟨n', (back'.accept head info).2⟩⟩
    exact handed.locals hk after
  | sframe super passed before =>
    refine ⟨fun _ => rfl, fun _ => ?_⟩
    obtain ⟨_, m', acked⟩ := out.acknowledge hk head (by simp [super])
    have trimmed : Flow k (acknowledgeTrim (Endpoint.heard A) f.h.nr) B m' := { acked with }
    have taken : Both k (acknowledgeTrim (Endpoint.heard A) f.h.nr)
        ({ B.1 with output := rest }, B.2) :=
      ⟨⟨m', trimmed.popAck head⟩, ⟨n, { back.popOther head (by simp [super]) with }⟩⟩
    exact taken.locals hk before
  | badControl control =>
    refine ⟨fun bearing => (bearing control).elim, fun impossible => ?_⟩
    cases impossible
  | control control does after =>
    refine ⟨fun bearing => (bearing control).elim, fun _ => ?_⟩
    have taken : Both k (Endpoint.heard A) ({ B.1 with output := rest }, B.2) :=
      ⟨⟨m, out.popAck head⟩, ⟨n, back.popOther head (by simp [control])⟩⟩
    exact (taken.control does).locals hk after

end Both

/-- What holds of a station by itself: its side, and that its buffers and the
control frames it sends are the ones this program makes. -/
structure Proper (type : IecType) (x : Station) : Prop where
  type : x.1.type = type
  prepared : ∀ b ∈ x.1.writeQ, ∃ asdu, b = asduBuf asdu
  quiet : ∀ f ∈ x.1.output, frameType f.h = .u → uframeFunc f.h ≠ .stopact

section Proper

variable {side : IecType} {x y : Station}

theorem Proper.uframe (h : Proper side x) (func : UframeFunc) (other : func ≠ .stopact) :
    Proper side (iecsockUframeSend x.1 func, x.2) := by
  refine { h with quiet := ?_ }
  intro f member control
  rcases List.mem_append.mp member with old | new
  · exact h.quiet f old control
  · obtain rfl := List.mem_singleton.mp new
    simpa using other

theorem Proper.popped (h : Proper side x) {f : Apdu} {rest : List Apdu}
    (head : x.1.output = f :: rest) : Proper side ({ x.1 with output := rest }, x.2) := by
  refine { h with quiet := ?_ }
  intro g later
  apply h.quiet g
  rw [head]
  exact List.mem_cons_of_mem _ later

theorem Proper.local (h : Proper side x) (l : Local x y) : Proper side y := by
  cases l with
  | enqueue asdu =>
    refine { h with prepared := ?_ }
    intro b member
    rcases List.mem_append.mp member with old | new
    · exact h.prepared b old
    · exact ⟨asdu, List.mem_singleton.mp new⟩
  | @transmit b q queue opened room =>
    obtain ⟨asdu, rfl⟩ := h.prepared b (by rw [queue]; exact List.mem_cons_self)
    refine ⟨by simpa using h.type, ?_, ?_⟩
    · intro c member
      exact h.prepared c (by rw [queue]; exact List.mem_cons_of_mem _ (by simpa using member))
    · intro f member control
      simp only [transmitBuf_eq] at member
      rcases List.mem_append.mp member with old | new
      · exact h.quiet f old control
      · obtain rfl := List.mem_singleton.mp new
        have info : frameType (((asduBuf asdu).h.setNr x.1.vr).setNs x.1.vs) = .i := by
          rw [frameType_setNs, frameType_setNr]
          exact frameType_asduBuf asdu
        exact absurd (info.symm.trans control) (by decide)
  | sframe =>
    refine { h with quiet := ?_ }
    intro f member control
    rcases List.mem_append.mp member with old | new
    · exact h.quiet f old control
    · obtain rfl := List.mem_singleton.mp new
      simp at control
  | retime t1 t2 t3 => exact { h with }

theorem Proper.instant (h : Proper side x) (change : Instant x y) : Proper side y := by
  cases change with
  | here l => exact h.local l
  | acknowledge f passed => exact { h with }
  | acknowledgeTrim f passed => exact { h with }
  | accept f => exact { h with }
  | control does =>
    cases does with
    | startact _ => exact { h.uframe .startcon (by decide) with }
    | startcon _ => exact { h with }
    | stopact _ => exact { h.uframe .stopcon (by decide) with }
    | stopcon _ => exact { h with }
    | testact => exact h.uframe .testcon (by decide)
    | testcon _ => exact { h with }
  | test => exact { h.uframe .testact (by decide) with }
  | close => exact { h with prepared := by intro b member; cases member }

theorem Proper.instants (h : Proper side x) (path : Instants x y) : Proper side y := by
  induction path with
  | refl => exact h
  | tail _ last ih => exact ih.instant last

end Proper

inductive Side where
  | master
  | slave
  deriving DecidableEq

def Side.other : Side → Side
  | .master => .slave
  | .slave => .master

/-- Two sessions; each one's `output` is the channel to the other. -/
structure Pair where
  master : Station
  slave : Station

def Pair.station (d : Pair) : Side → Station
  | .master => d.master
  | .slave => d.slave

def Pair.put (d : Pair) (x : Station) : Side → Pair
  | .master => { d with master := x }
  | .slave => { d with slave := x }

/-- What a side does of its own accord. -/
inductive Act where
  | call (c : AppCall)
  | t1
  | t2
  | t3

def Act.event : Act → Event
  | .call c => .app c
  | .t1 => .t1
  | .t2 => .t2
  | .t3 => .t3

inductive DuplexEvent where
  | act (side : Side) (act : Act)
  | deliver (side : Side) (script : HookScript)

def Pair.opened (d : Pair) : Prop := d.master.1.closed = false ∧ d.slave.1.closed = false

instance (d : Pair) : Decidable d.opened := inferInstanceAs (Decidable (_ ∧ _))

/-- `deliver side` hands the oldest frame of the other side's channel to `side`.
Once a session is closed the pair takes no further step. -/
def duplexStep (d : Pair) (e : DuplexEvent) : Option Pair :=
  if d.opened then
    match e with
    | .act side act => (step (d.station side) act.event).map fun x => d.put x side
    | .deliver side script =>
        match (d.station side.other).1.output with
        | [] => none
        | f :: rest =>
            let sender := d.station side.other
            some ((d.put (recvFrame script (d.station side) f) side).put
              ({ sender.1 with output := rest }, sender.2) side.other)
  else none

/-- The master has just sent its STARTDT request, the slave waits for it. -/
def duplexStart (opt : IecsockOptions) : Pair where
  master := (connectWritecb (iecsockSetOptions (Iecsock.fresh .master) opt), AppLog.empty)
  slave := (iecsockSetOptions (Iecsock.fresh .slave) opt, AppLog.empty)

/-- The inductive invariant of the pair. While the slave is still stopped, the
request that starts it is the very next frame it will see. -/
structure Linked (k : Nat) (d : Pair) : Prop where
  both : Both k d.master d.slave
  master : Proper .master d.master
  slave : Proper .slave d.slave
  gate : d.slave.1.stopdt = true →
    ∃ rest, d.master.1.output = ⟨uframeHdr .startact, []⟩ :: rest

def Prefixes (d : Pair) : Prop :=
  d.slave.2.delivered <+: d.master.2.enqueued ∧ d.master.2.delivered <+: d.slave.2.enqueued

section Pair

variable {k : Nat} {A B A' : Station}

private theorem Both.symm (h : Both k A B) : Both k B A := ⟨h.2, h.1⟩

theorem Both.prefixes (h : Both k A B) :
    B.2.delivered <+: A.2.enqueued ∧ A.2.delivered <+: B.2.enqueued := by
  obtain ⟨⟨_, out⟩, ⟨_, back⟩⟩ := h
  have first := out.accounted
  have second := back.accounted
  rw [List.append_assoc] at first second
  exact ⟨⟨_, first.symm⟩, ⟨_, second.symm⟩⟩

private theorem act_keeps {act : Act} (h : Both k A B) (hk : k < 32767)
    (happens : step A act.event = some A') :
    (A'.1.closed = true ∧ A'.2 = A.2) ∨ (Both k A' B ∧ A'.1.stopdt = A.1.stopdt) := by
  cases act with
  | call c =>
    simp only [Act.event, step] at happens
    split at happens
    · cases happens
    · obtain rfl := Option.some.inj happens
      have made := exec_locals A c
      exact .inr ⟨h.locals hk made, made.same.stopdt⟩
  | t1 =>
    simp only [Act.event, step] at happens
    split at happens
    · obtain rfl := Option.some.inj happens
      exact .inl ⟨rfl, rfl⟩
    · cases happens
  | t2 =>
    simp only [Act.event, step] at happens
    split at happens
    · obtain rfl := Option.some.inj happens
      have fired := h.local hk (.retime A A.1.t1Timer false A.1.t3Timer)
      exact .inr ⟨fired.local hk (.sframe _), rfl⟩
    · cases happens
  | t3 =>
    simp only [Act.event, step] at happens
    split at happens
    · obtain rfl := Option.some.inj happens
      have fired := h.local hk (.retime A true A.1.t2Timer false)
      exact .inr ⟨(fired.flags A.1.stopdt true true).uframe .testact, rfl⟩
    · cases happens

private theorem rejected_log {f : Apdu} {r : Int} (control : frameType f.h = .u) (bad : r ≠ 0)
    (happens : Received A f r A') : A'.2 = A.2 := by
  cases happens with
  | ignored info gate => exact absurd rfl bad
  | badNr bearing rejected => rfl
  | badNs info passed before skipped => exact absurd (info.symm.trans control) (by decide)
  | iframe info opened passed before next after => exact absurd rfl bad
  | sframe super passed before => exact absurd rfl bad
  | badControl control => rfl
  | control control does after => exact absurd rfl bad

/-- After any accepted frame a slave that had only the start request ahead of it
is started. -/
private theorem slave_started {f : Apdu} (slave : A.1.type = .slave)
    (quiet : frameType f.h = .u → uframeFunc f.h ≠ .stopact)
    (gate : A.1.stopdt = true → f = ⟨uframeHdr .startact, []⟩)
    (happens : Received A f 0 A') : A'.1.stopdt = false := by
  have other (ne : f ≠ ⟨uframeHdr .startact, []⟩) : A.1.stopdt = false := by
    cases stopped : A.1.stopdt with
    | false => rfl
    | true => exact absurd (gate stopped) ne
  cases happens with
  | ignored info gated =>
    rw [gate gated.2] at info
    simp at info
  | iframe info _ _ before _ after =>
    have started := other (by rintro rfl; simp at info)
    exact after.same.stopdt.trans (before.same.stopdt.trans started)
  | sframe super _ before =>
    have started := other (by rintro rfl; simp at super)
    exact before.same.stopdt.trans started
  | control control does after =>
    rw [after.same.stopdt]
    generalize func : uframeFunc f.h = g at does
    cases does with
    | startact _ => rfl
    | startcon master => exact absurd (slave.symm.trans master) (by decide)
    | stopact _ => exact absurd func (quiet control)
    | stopcon master => exact absurd (slave.symm.trans master) (by decide)
    | testact => exact other (by rintro rfl; simp at func)
    | testcon _ => exact other (by rintro rfl; simp at func)

end Pair

section Invariant

variable {k : Nat} {d d' : Pair}

private theorem Linked.act_master {act : Act} {x : Station} (h : Linked k d) (hk : k < 32767)
    (happens : step d.master act.event = some x) :
    Prefixes { d with master := x } ∧
      (Pair.opened { d with master := x } → Linked k { d with master := x }) := by
  have before := h.both.prefixes
  rcases act_keeps h.both hk happens with ⟨closed, log⟩ | ⟨both, _⟩
  · refine ⟨?_, ?_⟩
    · simpa [Prefixes, log] using before
    · intro opened
      have still := opened.1
      simp [closed] at still
  · refine ⟨both.prefixes, fun _ => ?_⟩
    obtain ⟨more, grown⟩ := (step_instants happens).output
    refine ⟨both, h.master.instants (step_instants happens), h.slave, ?_⟩
    intro stopped
    obtain ⟨rest, head⟩ := h.gate stopped
    exact ⟨rest ++ more, by simp [grown, head]⟩

private theorem Linked.act_slave {act : Act} {x : Station} (h : Linked k d) (hk : k < 32767)
    (happens : step d.slave act.event = some x) :
    Prefixes { d with slave := x } ∧
      (Pair.opened { d with slave := x } → Linked k { d with slave := x }) := by
  have before := h.both.prefixes
  rcases act_keeps h.both.symm hk happens with ⟨closed, log⟩ | ⟨both, same⟩
  · refine ⟨?_, ?_⟩
    · simpa [Prefixes, log] using before
    · intro opened
      have still := opened.2
      simp [closed] at still
  · refine ⟨both.symm.prefixes, fun _ => ?_⟩
    refine ⟨both.symm, h.master, h.slave.instants (step_instants happens), ?_⟩
    intro stopped
    exact h.gate (same.symm.trans stopped)

private theorem Linked.request {f : Apdu} {rest : List Apdu} (h : Linked k d)
    (head : d.master.1.output = f :: rest) (stopped : d.slave.1.stopdt = true) :
    f = ⟨uframeHdr .startact, []⟩ := by
  obtain ⟨more, first⟩ := h.gate stopped
  rw [head] at first
  exact (List.cons.inj first).1

theorem Linked.started {f : Apdu} {rest : List Apdu} (h : Linked k d) (side : Side)
    (head : (d.station side.other).1.output = f :: rest) (info : frameType f.h = .i) :
    ¬ (d.station side).1.gated := by
  intro gated
  cases side with
  | master => exact absurd (h.master.type.symm.trans gated.1) (by decide)
  | slave =>
    rw [h.request head gated.2] at info
    simp at info

private theorem Linked.deliver_slave {f : Apdu} {rest : List Apdu} (h : Linked k d)
    (hk : k < 32767) (head : d.master.1.output = f :: rest) (script : HookScript) :
    (frameType f.h ≠ .u → (iecsockFrameRecv script.hooks d.slave f).1 = 0) ∧
      Prefixes ⟨({ d.master.1 with output := rest }, d.master.2), recvFrame script d.slave f⟩ ∧
      (Pair.opened ⟨({ d.master.1 with output := rest }, d.master.2), recvFrame script d.slave f⟩ →
        Linked k ⟨({ d.master.1 with output := rest }, d.master.2), recvFrame script d.slave f⟩) := by
  have happens := frame_received script d.slave f
  have gate := h.request head
  have started := h.started .slave head
  have member : f ∈ d.master.1.output := by
    rw [head]
    exact List.mem_cons_self
  obtain ⟨accepted, both⟩ := h.both.symm.received hk head started happens
  refine ⟨accepted, ?_⟩
  unfold recvFrame
  simp only
  split
  · rename_i ok
    have linked := both ok
    refine ⟨linked.symm.prefixes, fun _ => ?_⟩
    refine ⟨linked.symm, h.master.popped head, h.slave.instants (received_instants happens), ?_⟩
    intro stopped
    rw [ok] at happens
    have running := slave_started h.slave.type (h.master.quiet f member) gate happens
    exact absurd (running.symm.trans stopped) (by decide)
  · rename_i bad
    have control : frameType f.h = .u := by
      by_contra bearing
      exact bad (accepted bearing)
    have log := rejected_log control bad happens
    refine ⟨?_, ?_⟩
    · simpa [Prefixes, log] using h.both.prefixes
    · intro opened
      have still := opened.2
      simp [iecsockClose] at still

private theorem Linked.deliver_master {f : Apdu} {rest : List Apdu} (h : Linked k d)
    (hk : k < 32767) (head : d.slave.1.output = f :: rest) (script : HookScript) :
    (frameType f.h ≠ .u → (iecsockFrameRecv script.hooks d.master f).1 = 0) ∧
      Prefixes ⟨recvFrame script d.master f, ({ d.slave.1 with output := rest }, d.slave.2)⟩ ∧
      (Pair.opened ⟨recvFrame script d.master f, ({ d.slave.1 with output := rest }, d.slave.2)⟩ →
        Linked k ⟨recvFrame script d.master f, ({ d.slave.1 with output := rest }, d.slave.2)⟩) := by
  have happens := frame_received script d.master f
  have started := h.started .master head
  obtain ⟨accepted, both⟩ := h.both.received hk head started happens
  refine ⟨accepted, ?_⟩
  unfold recvFrame
  simp only
  split
  · rename_i ok
    have linked := both ok
    refine ⟨linked.prefixes, fun _ => ?_⟩
    obtain ⟨more, grown⟩ := (received_instants happens).output
    refine ⟨linked, h.master.instants (received_instants happens), h.slave.popped head, ?_⟩
    intro stopped
    obtain ⟨first, waiting⟩ := h.gate stopped
    exact ⟨first ++ more, by simp [grown, waiting]⟩
  · rename_i bad
    have control : frameType f.h = .u := by
      by_contra bearing
      exact bad (accepted bearing)
    have log := rejected_log control bad happens
    refine ⟨?_, ?_⟩
    · simpa [Prefixes, log] using h.both.prefixes
    · intro opened
      have still := opened.1
      simp [iecsockClose] at still

theorem linked_step {e : DuplexEvent} (hk : k < 32767)
    (h : Prefixes d ∧ (d.opened → Linked k d)) (happens : duplexStep d e = some d') :
    Prefixes d' ∧ (d'.opened → Linked k d') := by
  unfold duplexStep at happens
  split at happens
  · rename_i opened
    have linked := h.2 opened
    cases e with
    | act side act =>
      obtain ⟨x, stepped, rfl⟩ := Option.map_eq_some_iff.mp happens
      cases side with
      | master => exact linked.act_master hk stepped
      | slave => exact linked.act_slave hk stepped
    | deliver side script =>
      cases side with
      | master =>
        cases head : d.slave.1.output with
        | nil => simp [Pair.station, Side.other, head] at happens
        | cons f rest =>
          simp only [Pair.station, Side.other, head] at happens
          obtain rfl := Option.some.inj happens
          exact (linked.deliver_master hk head script).2
      | slave =>
        cases head : d.master.1.output with
        | nil => simp [Pair.station, Side.other, head] at happens
        | cons f rest =>
          simp only [Pair.station, Side.other, head] at happens
          obtain rfl := Option.some.inj happens
          exact (linked.deliver_slave hk head script).2
  · cases happens

theorem linked_start (opt : IecsockOptions) : Linked opt.k (duplexStart opt) := by
  have empty (A : Station) (none : A.1.writeQ = []) :
      ∀ b ∈ A.1.writeQ, ∃ asdu, b = asduBuf asdu := by
    intro b member
    rw [none] at member
    cases member
  have out : Flow opt.k (duplexStart opt).master (duplexStart opt).slave 0 :=
    ⟨rfl, empty _ rfl, rfl, rfl, rfl, rfl, rfl, Nat.le_refl 0, Nat.zero_le _⟩
  have back : Flow opt.k (duplexStart opt).slave (duplexStart opt).master 0 :=
    ⟨rfl, empty _ rfl, rfl, rfl, rfl, rfl, rfl, Nat.le_refl 0, Nat.zero_le _⟩
  refine ⟨⟨⟨0, out⟩, ⟨0, back⟩⟩, ⟨rfl, empty _ rfl, ?_⟩, ⟨rfl, empty _ rfl, ?_⟩,
    fun _ => ⟨[], rfl⟩⟩
  · intro f member _
    obtain rfl := List.mem_singleton.mp member
    decide
  · intro f member
    cases member

end Invariant

/-- For any interleaving, however long: while the connection stands, the I- or
S-frame at the head of either channel passes both number checks and is taken, and
each application has received a prefix of what the other enqueued. -/
theorem duplex_prefixes {opt : IecsockOptions} (hk : opt.k < 32767)
    {es : List DuplexEvent} {d : Pair} (reached : run duplexStep (duplexStart opt) es = some d) :
    (d.slave.2.delivered <+: d.master.2.enqueued ∧
      d.master.2.delivered <+: d.slave.2.enqueued) ∧
    (d.opened → ∀ (side : Side) (script : HookScript) (f : Apdu) (rest : List Apdu),
      (d.station side.other).1.output = f :: rest → frameType f.h ≠ .u →
        checkNr (d.station side).1 f.h.nr = true ∧
          (frameType f.h = .i → checkNs (d.station side).1 f.h.ns = true) ∧
          (iecsockFrameRecv script.hooks (d.station side) f).1 = 0) := by
  have start := linked_start opt
  have invariant := run_invariant (I := fun d => Prefixes d ∧ (d.opened → Linked opt.k d))
    (fun _ _ _ inv happens => linked_step hk inv happens)
    ⟨start.both.prefixes, fun _ => start⟩ reached
  refine ⟨invariant.1, ?_⟩
  intro opened side script f rest head bearing
  have linked := invariant.2 opened
  cases side with
  | master =>
    obtain ⟨⟨_, out⟩, ⟨_, back⟩⟩ := linked.both
    refine ⟨(out.acknowledge hk head bearing).1, ?_, (linked.deliver_master hk head script).1 bearing⟩
    intro info
    exact (checkNs_eq _ _).mpr (back.accept head info).1
  | slave =>
    obtain ⟨⟨_, out⟩, ⟨_, back⟩⟩ := linked.both.symm
    refine ⟨(out.acknowledge hk head bearing).1, ?_, (linked.deliver_slave hk head script).1 bearing⟩
    intro info
    exact (checkNs_eq _ _).mpr (back.accept head info).1

/-- Start the link, send one unit down and take it. -/
theorem duplex_prefixes_first :
    ∃ d, run duplexStep (duplexStart ⟨8, 12⟩)
        [.deliver .slave {}, .act .master (.call (.enqueue ⟨[0x64], by decide⟩)),
          .act .master (.call .runWriteQueue), .deliver .slave {}] = some d ∧
      d.slave.2.delivered = [[0x64]] ∧ d.slave.2.delivered <+: d.master.2.enqueued := by
  have reached : run duplexStep (duplexStart ⟨8, 12⟩)
      [.deliver .slave {}, .act .master (.call (.enqueue ⟨[0x64], by decide⟩)),
        .act .master (.call .runWriteQueue), .deliver .slave {}] = some _ := rfl
  exact ⟨_, reached, rfl, (duplex_prefixes (by decide) reached).1.1⟩

end IecUtils.Link.Duplex
