/- Module: IecUtils/Link/Frame
   source: ieclink/iecsock.h, ieclink/iecsock_internal.h, iecsock_prepare_iframe of ieclink/iecsock.c
   digest: Six-octet link headers, their bit-fields, and the buffers that carry them. -/

import Mathlib.Data.List.Basic
import Mathlib.Tactic.Common

set_option autoImplicit false
set_option relaxedAutoImplicit false

namespace IecUtils.Link.Frame

def iec104BufLen : Nat := 255
def iec104CtrlLen : Nat := 4
def iec104AsduMax : Nat := 249
def iecApduMax : Nat := 253
def iecApduMin : Nat := 4

/-- `struct iechdr`: start octet, length octet and the four control octets
that the `ic`, `sc` and `uc` views of the union share. -/
structure Iechdr where
  start : UInt8
  length : UInt8
  raw0 : UInt8
  raw1 : UInt8
  raw2 : UInt8
  raw3 : UInt8
  deriving DecidableEq, Repr

/-- `sizeof(struct iechdr)`. -/
def iechdrSize : Nat := 6

inductive FrameType where
  | i
  | s
  | u
  deriving DecidableEq, Repr

inductive UframeFunc where
  | startact
  | startcon
  | stopact
  | stopcon
  | testact
  | testcon
  deriving DecidableEq, Repr

def frameType (h : Iechdr) : FrameType :=
  if h.raw0 &&& 0x1 = 0 then .i
  else if h.raw0 &&& 0x2 = 0 then .s
  else .u

def uframeFunc (h : Iechdr) : UframeFunc :=
  if h.raw0 &&& 0x4 ≠ 0 then .startact
  else if h.raw0 &&& 0x8 ≠ 0 then .startcon
  else if h.raw0 &&& 0x10 ≠ 0 then .stopact
  else if h.raw0 &&& 0x20 ≠ 0 then .stopcon
  else if h.raw0 &&& 0x40 ≠ 0 then .testact
  else .testcon

/-- The bit-field `ic.ns`: fifteen bits above the format bit, low octet first. -/
def Iechdr.ns (h : Iechdr) : Nat := (h.raw0.toNat + 256 * h.raw1.toNat) / 2

/-- The bit-field `ic.nr`, which `sc.nr` shares. -/
def Iechdr.nr (h : Iechdr) : Nat := (h.raw2.toNat + 256 * h.raw3.toNat) / 2

/-- Store into `ic.ns`: the field keeps fifteen bits and the format bit stays. -/
def Iechdr.setNs (h : Iechdr) (v : Nat) : Iechdr :=
  let word := h.raw0.toNat % 2 + 2 * (v % 32768)
  { h with raw0 := UInt8.ofNat word, raw1 := UInt8.ofNat (word / 256) }

/-- Store into `ic.nr`. -/
def Iechdr.setNr (h : Iechdr) (v : Nat) : Iechdr :=
  let word := h.raw2.toNat % 2 + 2 * (v % 32768)
  { h with raw2 := UInt8.ofNat word, raw3 := UInt8.ofNat (word / 256) }

/-- A frame as it travels: the header and the octets after it. -/
structure Apdu where
  h : Iechdr
  data : List UInt8
  deriving DecidableEq, Repr

/-- What the application hands over: at most `IEC104_ASDU_MAX` octets. -/
structure Asdu where
  bytes : List UInt8
  fits : bytes.length ≤ iec104AsduMax
  deriving DecidableEq

/-- `struct iec_buf` without its queue links. -/
structure IecBuf where
  dataLen : UInt8
  h : Iechdr
  data : List UInt8
  deriving DecidableEq, Repr

/-- A header fresh from `calloc` or `memset`. -/
def Iechdr.zero : Iechdr := ⟨0, 0, 0, 0, 0, 0⟩

def iecsockPrepareIframe (buf : IecBuf) : IecBuf :=
  { buf with
    h := { buf.h with
      start := 0x68
      length := buf.dataLen + 4
      raw0 := buf.h.raw0 &&& 0xfe } }

/-- The buffer `iec_asdu_send` allocates and prepares for one unit. -/
def asduBuf (asdu : Asdu) : IecBuf :=
  iecsockPrepareIframe ⟨UInt8.ofNat asdu.bytes.length, Iechdr.zero, asdu.bytes⟩

/-- The two stores into `h->ic` that give a buffer its numbers. -/
def IecBuf.stamp (b : IecBuf) (nr ns : Nat) : IecBuf := { b with h := (b.h.setNr nr).setNs ns }

/-- The octets `bufferevent_write(io, h, h->length + 2)` takes from a buffer. -/
def IecBuf.wire (b : IecBuf) : Apdu :=
  ⟨b.h, b.data.take (b.h.length.toNat + 2 - iechdrSize)⟩

/-- The header `iecsock_uframe_send` fills in. -/
def uframeHdr (func : UframeFunc) : Iechdr :=
  let act : UInt8 :=
    match func with
    | .startact => 0x4
    | .startcon => 0x8
    | .stopact => 0x10
    | .stopcon => 0x20
    | .testact => 0x40
    | .testcon => 0x80
  ⟨0x68, 4, 0x3 ||| act, 0, 0, 0⟩

/-- The header `iecsock_sframe_send` fills in. -/
def sframeHdr (vr : Nat) : Iechdr :=
  Iechdr.setNr ⟨0x68, 4, 0x1, 0, 0, 0⟩ vr

@[simp] theorem frameType_uframeHdr (func : UframeFunc) : frameType (uframeHdr func) = .u := by
  cases func <;> rfl

@[simp] theorem uframeFunc_uframeHdr (func : UframeFunc) : uframeFunc (uframeHdr func) = func := by
  cases func <;> rfl

theorem Iechdr.nr_lt (h : Iechdr) : h.nr < 32768 := by
  have low := h.raw2.toNat_lt
  have high := h.raw3.toNat_lt
  unfold Iechdr.nr
  omega

@[simp] theorem Iechdr.nr_setNr (h : Iechdr) (v : Nat) : (h.setNr v).nr = v % 32768 := by
  simp only [Iechdr.setNr, Iechdr.nr, UInt8.toNat_ofNat']
  omega

@[simp] theorem Iechdr.ns_setNs (h : Iechdr) (v : Nat) : (h.setNs v).ns = v % 32768 := by
  simp only [Iechdr.setNs, Iechdr.ns, UInt8.toNat_ofNat']
  omega

@[simp] theorem Iechdr.nr_setNs (h : Iechdr) (v : Nat) : (h.setNs v).nr = h.nr := rfl

theorem frameType_eq_i_iff (h : Iechdr) : frameType h = .i ↔ h.raw0.toNat % 2 = 0 := by
  have bit : h.raw0 &&& 0x1 = 0 ↔ h.raw0.toNat % 2 = 0 := by
    rw [← UInt8.toNat_inj, UInt8.toNat_and]
    change h.raw0.toNat &&& 1 = 0 ↔ _
    rw [Nat.and_one_is_mod]
  unfold frameType
  rw [← bit]
  split_ifs with first second <;> simp [first]

theorem frameType_setNs (h : Iechdr) (v : Nat) :
    frameType (h.setNs v) = .i ↔ frameType h = .i := by
  rw [frameType_eq_i_iff, frameType_eq_i_iff]
  simp only [Iechdr.setNs, UInt8.toNat_ofNat']
  omega

@[simp] theorem frameType_setNr (h : Iechdr) (v : Nat) :
    frameType (h.setNr v) = frameType h := rfl

@[simp] theorem frameType_sframeHdr (vr : Nat) : frameType (sframeHdr vr) = .s := by
  rw [sframeHdr, frameType_setNr]
  rfl

@[simp] theorem nr_sframeHdr (vr : Nat) : (sframeHdr vr).nr = vr % 32768 := by
  simp [sframeHdr]

@[simp] theorem frameType_asduBuf (asdu : Asdu) : frameType (asduBuf asdu).h = .i := by
  rw [frameType_eq_i_iff]
  simp [asduBuf, iecsockPrepareIframe, Iechdr.zero]

@[simp] theorem data_asduBuf (asdu : Asdu) : (asduBuf asdu).data = asdu.bytes := rfl

theorem length_asduBuf (asdu : Asdu) :
    (asduBuf asdu).h.length.toNat = asdu.bytes.length + 4 := by
  have fits := asdu.fits
  simp only [iec104AsduMax] at fits
  simp only [asduBuf, iecsockPrepareIframe, UInt8.toNat_add, UInt8.toNat_ofNat',
    UInt8.reduceToNat]
  omega

end IecUtils.Link.Frame
