/- Module: IecUtils/Link/Session
   source: ieclink/iecsock.c, ieclink/iecsock.h, ieclink/iecsock_internal.h
   digest: The link session: counters, queues, timers, hooks and the three receive handlers. -/

import IecUtils.Foundation.SequenceNumber
import IecUtils.Link.Frame
import Mathlib.Algebra.Group.Int.Defs
import Mathlib.Data.Int.Basic

set_option autoImplicit false
set_option relaxedAutoImplicit false

namespace IecUtils.Link.Session

open IecUtils.Foundation.SequenceNumber
open IecUtils.Link.Frame

inductive IecType where
  | slave
  | master
  deriving DecidableEq, Repr

/-- `struct iecsock`. A timer field says whether the timer is pending, `output`
holds the frames given to `bufferevent_write` that the connection has not yet
carried away, and `closed` stands for the memory `iecsock_close` released. -/
structure Iecsock where
  type : IecType
  stopdt : Bool
  testfr : Bool
  w : Nat
  k : Nat
  va : Nat
  vr : Nat
  vs : Nat
  vaPeer : Nat
  t1Timer : Bool
  t2Timer : Bool
  t3Timer : Bool
  writeQ : List IecBuf
  ackwQ : List IecBuf
  output : List Apdu
  closed : Bool
  deriving DecidableEq, Repr

def defaultW : Nat := 8
def defaultK : Nat := 12

/-- A session as `calloc` and `iecsock_set_defaults` leave it; both
`iecsock_connect` and `listen_readcb` then set the type and `stopdt`. -/
def Iecsock.fresh (type : IecType) : Iecsock where
  type := type
  stopdt := true
  testfr := false
  w := defaultW
  k := defaultK
  va := 0
  vr := 0
  vs := 0
  vaPeer := 0
  t1Timer := false
  t2Timer := false
  t3Timer := false
  writeQ := []
  ackwQ := []
  output := []
  closed := false

/-- `struct iecsock_options`, less the timer durations. -/
structure IecsockOptions where
  w : Nat
  k : Nat

def iecsockSetOptions (s : Iecsock) (opt : IecsockOptions) : Iecsock :=
  { s with w := opt.w, k := opt.k }

/-- The expression `(x - y + 32767) % 32767` on C integers. -/
def seqDist (x y : Nat) : Int := ((x : Int) - y + 32767).tmod 32767

def iecsockUframeSend (s : Iecsock) (func : UframeFunc) : Iecsock :=
  { s with output := s.output ++ [⟨uframeHdr func, []⟩] }

def iecsockSframeSend (s : Iecsock) : Iecsock :=
  { s with output := s.output ++ [⟨sframeHdr s.vr, []⟩] }

def t1TimerStart (s : Iecsock) : Iecsock := { s with t1Timer := true }
def t1TimerStop (s : Iecsock) : Iecsock := { s with t1Timer := false }
def t2TimerStart (s : Iecsock) : Iecsock := { s with t2Timer := true }
def t2TimerStop (s : Iecsock) : Iecsock := { s with t2Timer := false }
def t3TimerStart (s : Iecsock) : Iecsock := { s with t3Timer := true }
def t3TimerStop (s : Iecsock) : Iecsock := { s with t3Timer := false }

/-- The body of the loop in `iecsock_run_write_queue`, for the buffer just
taken off the head of `write_q`. -/
def transmitBuf (s : Iecsock) (b : IecBuf) : Iecsock :=
  let b := b.stamp s.vr s.vs
  let s := t1TimerStart (if s.t1Timer then t1TimerStop s else s)
  { s with
    output := s.output ++ [b.wire]
    ackwQ := s.ackwQ ++ [b]
    vs := (s.vs + 1) % 32767 }

/-- The loop of `iecsock_run_write_queue`; the list is `write_q` itself. -/
def writeLoop : List IecBuf → Iecsock → Iecsock
  | [], s => s
  | b :: q, s =>
      if s.vs ≠ (s.va + s.k) % 32767 then
        writeLoop q (transmitBuf { s with writeQ := q } b)
      else s

/-- The gate at the head of `iecsock_run_write_queue`. -/
def Iecsock.gated (s : Iecsock) : Prop := s.type = .slave ∧ s.stopdt = true

instance (s : Iecsock) : Decidable s.gated := inferInstanceAs (Decidable (_ ∧ _))

def iecsockRunWriteQueue (s : Iecsock) : Iecsock :=
  if s.gated then s else writeLoop s.writeQ s

def iecsockRunAckwQueue (s : Iecsock) (nr : Nat) : Iecsock :=
  { s with ackwQ := s.ackwQ.dropWhile fun b => b.h.ns != nr }

def checkNr (s : Iecsock) (nr : Nat) : Bool :=
  decide (seqDist nr s.va ≤ seqDist s.vs s.va)

def checkNs (s : Iecsock) (ns : Nat) : Bool := ns == s.vr

/-- `iecsock_can_queue`: the difference is an `int`, the result a `size_t`. -/
def iecsockCanQueue (s : Iecsock) : Nat :=
  (((s.k : Int) - seqDist s.vs s.va) % 2 ^ 64).toNat

/-- The hooks in force for a session whose application keeps a state in `σ`;
an absent hook is a null pointer in both tables. -/
structure Iechooks (σ : Type) where
  activationIndication : Option (Iecsock × σ → Iecsock × σ) := none
  deactivationIndication : Option (Iecsock × σ → Iecsock × σ) := none
  disconnectIndication : Option (Iecsock × σ → Iecsock × σ) := none
  dataIndication : Option (IecBuf → Iecsock × σ → Iecsock × σ) := none
  transmitWakeup : Option (Iecsock × σ → Iecsock × σ) := none

section Handlers

variable {σ : Type} (hooks : Iechooks σ)

def indicate (hook : Option (Iecsock × σ → Iecsock × σ)) (x : Iecsock × σ) : Iecsock × σ :=
  hook.elim x fun f => f x

/-- The block both acknowledgement paths share: once everything sent is
acknowledged, supervision ends and the application may send again. -/
def wakeIfAcked (x : Iecsock × σ) : Iecsock × σ :=
  if x.1.va = x.1.vs then indicate hooks.transmitWakeup (t1TimerStop x.1, x.2) else x

def iecsockIframeRecv (x : Iecsock × σ) (f : Apdu) : Int × (Iecsock × σ) :=
  let buf : IecBuf := ⟨f.h.length - 4, f.h, f.data⟩
  if !checkNr x.1 f.h.nr then (-1, x)
  else
    let x := wakeIfAcked hooks ({ x.1 with va := f.h.nr }, x.2)
    let x := (t2TimerStart (t2TimerStop x.1), x.2)
    if !checkNs x.1 f.h.ns then (-1, x)
    else
      let s := { x.1 with vr := (x.1.vr + 1) % 32767 }
      let s := if seqDist s.vr s.vaPeer = s.w then { iecsockSframeSend s with vaPeer := s.vr } else s
      (0, indicate (hooks.dataIndication.map fun hook => hook buf) (s, x.2))

def iecsockSframeRecv (x : Iecsock × σ) (f : Apdu) : Int × (Iecsock × σ) :=
  if !checkNr x.1 f.h.nr then (-1, x)
  else
    (0, wakeIfAcked hooks ({ iecsockRunAckwQueue x.1 f.h.nr with va := f.h.nr }, x.2))

def iecsockUframeRecv (x : Iecsock × σ) (f : Apdu) : Int × (Iecsock × σ) :=
  match uframeFunc f.h with
  | .startact =>
      if x.1.type ≠ .slave then (-1, x)
      else
        let s := iecsockUframeSend { x.1 with stopdt := false } .startcon
        (0, indicate hooks.activationIndication (iecsockRunWriteQueue s, x.2))
  | .startcon =>
      if x.1.type ≠ .master then (-1, x)
      else
        let s := { t1TimerStop x.1 with stopdt := false }
        (0, indicate hooks.activationIndication (s, x.2))
  | .stopact =>
      if x.1.type ≠ .slave then (-1, x)
      else
        let s := iecsockUframeSend { x.1 with stopdt := true } .stopcon
        (0, indicate hooks.deactivationIndication (s, x.2))
  | .stopcon =>
      if x.1.type ≠ .master then (-1, x)
      else (0, indicate hooks.deactivationIndication ({ x.1 with stopdt := true }, x.2))
  | .testact =>
      let s := iecsockUframeSend x.1 .testcon
      -- a slave must not send tests of its own while the master sends them
      let s := if s.type = .slave ∧ s.testfr = false then t3TimerStop s else s
      (0, (s, x.2))
  | .testcon =>
      if x.1.testfr = false then (-1, x)
      else (0, ({ t1TimerStop x.1 with testfr := false }, x.2))

/-- `iecsock_frame_recv` on the frame that fills the session buffer. -/
def iecsockFrameRecv (x : Iecsock × σ) (f : Apdu) : Int × (Iecsock × σ) :=
  let x := (t3TimerStart (t3TimerStop x.1), x.2)
  match frameType f.h with
  | .i => if x.1.gated then (0, x) else iecsockIframeRecv hooks x f
  | .s => iecsockSframeRecv hooks x f
  | .u => iecsockUframeRecv hooks x f

/-- `iecsock_close`, up to the reconnection of a master. -/
def iecsockClose (s : Iecsock) : Iecsock :=
  { s with
    writeQ := []
    ackwQ := []
    t1Timer := false
    t2Timer := false
    t3Timer := false
    closed := true }

def buferrorcb (x : Iecsock × σ) : Iecsock × σ :=
  let x := indicate hooks.disconnectIndication x
  (iecsockClose x.1, x.2)

/-- `t1_timer_run`: the connection error callback is all it calls. -/
def t1TimerRun (x : Iecsock × σ) : Iecsock × σ := buferrorcb hooks x

def t2TimerRun (s : Iecsock) : Iecsock :=
  { iecsockSframeSend s with vaPeer := s.vr }

def t3TimerRun (s : Iecsock) : Iecsock :=
  iecsockUframeSend { t1TimerStart s with testfr := true } .testact

end Handlers

/-- What the end of `connect_writecb` and `listen_readcb` does to a session. -/
def connectWritecb (s : Iecsock) : Iecsock :=
  t1TimerStart (iecsockUframeSend s .startact)

theorem seqDist_eq {x y : Nat} (hy : y ≤ 32767) : seqDist x y = (wrapDist 32767 x y : Nat) := by
  unfold seqDist wrapDist
  rw [Int.tmod_eq_emod_of_nonneg (by omega)]
  omega

theorem mod_eq_of_seqDist_eq_zero {x y : Nat} (hx : x ≤ 32767) (hy : y ≤ 32767)
    (zero : seqDist x y = 0) : wrapDist 32767 x y = 0 ∧ x % 32767 = y % 32767 := by
  rw [seqDist_eq hy] at zero
  have none := Int.ofNat_eq_zero.mp zero
  exact ⟨none, mod_eq_of_wrapDist_eq_zero hx hy none⟩

theorem checkNr_eq {s : Iecsock} (ha : s.va ≤ 32767) (nr : Nat) :
    checkNr s nr = true ↔ wrapDist 32767 nr s.va ≤ wrapDist 32767 s.vs s.va := by
  simp only [checkNr, seqDist_eq ha, decide_eq_true_eq, Int.ofNat_le]

theorem checkNs_eq (s : Iecsock) (ns : Nat) : checkNs s ns = true ↔ ns = s.vr := by
  simp [checkNs]

end IecUtils.Link.Session
