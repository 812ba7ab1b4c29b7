/- Module: IecUtils/Link/Reader
   source: iecsock_buffer_read and bufreadcb of ieclink/iecsock.c
   digest: The two-mode reader cuts any chunked octet stream into the frames of the reference parse. -/

import IecUtils.Link.Endpoint
import Mathlib.Data.List.GetD

set_option autoImplicit false
set_option relaxedAutoImplicit false

namespace IecUtils.Link.Reader

open IecUtils.Link.Frame
open IecUtils.Link.Session
open IecUtils.Link.Endpoint

/-- What the reader calls: the function pointer it is given, and `iecsock_close`. -/
structure Handlers (σ : Type) where
  frameRecv : List UInt8 → UInt8 → σ → Int × σ
  iecsockClose : σ → σ

/-- One call of `frame_recv`: the session buffer and `len` it finds. It is clean
when no header was rejected and no earlier call failed. -/
structure FrameCall where
  buf : List UInt8
  len : UInt8
  clean : Bool
  deriving DecidableEq

/-- The octets `buf[0..len)`. -/
def FrameCall.frame (c : FrameCall) : List UInt8 := c.buf.take c.len.toNat

/-- `h->length` of the header in the session buffer. -/
def FrameCall.length (c : FrameCall) : UInt8 := c.buf.getD 1 0

/-- The reader's part of `struct iecsock`, its `bufferevent`, and a trace. A write
past the end of the session buffer would make `buf` longer than 255. -/
structure ReadState (σ : Type) where
  buf : List UInt8
  len : UInt8
  left : UInt8
  watermark : Nat
  input : List UInt8
  session : σ
  aborted : Bool
  sound : Bool
  calls : List FrameCall

def ReadState.fresh {σ : Type} (session : σ) : ReadState σ where
  buf := List.replicate iec104BufLen 0
  len := 0
  left := 0
  watermark := iechdrSize
  input := []
  session := session
  aborted := false
  sound := true
  calls := []

def store (buf : List UInt8) (offset : Nat) (bytes : List UInt8) : List UInt8 :=
  buf.take offset ++ bytes ++ buf.drop (offset + bytes.length)

section Reader

variable {σ : Type} (ops : Handlers σ)

/-- Call `frame_recv` on the session as it stands. -/
def dispatch (r : ReadState σ) : Int × ReadState σ :=
  let result := ops.frameRecv r.buf r.len r.session
  (result.1,
    { r with
      session := result.2
      sound := r.sound && result.1 == 0
      calls := r.calls ++ [⟨r.buf, r.len, r.sound⟩] })

def badHeader (buf : List UInt8) : Prop :=
  buf.getD 0 0 ≠ 0x68 ∨ (buf.getD 1 0).toNat < iecApduMin ∨ (buf.getD 1 0).toNat > iecApduMax

instance (buf : List UInt8) : Decidable (badHeader buf) := inferInstanceAs (Decidable (_ ∨ _))

/-- `left` is zero: read a header. A rejected one closes the session, and the
code goes on with it all the same. -/
def headerRead (r : ReadState σ) : ReadState σ :=
  let got := r.input.take iechdrSize
  let r := { r with buf := store r.buf 0 got, input := r.input.drop iechdrSize }
  if got.length ≠ iechdrSize then { r with aborted := true, sound := false }
  else
    let r := if badHeader r.buf then
      { r with session := ops.iecsockClose r.session, sound := false } else r
    let r := { r with left := r.buf.getD 1 0 - 4, len := 6 }
    if r.left = 0 then
      let (ret, r) := dispatch ops r
      if ret = 0 then { r with left := 0, len := 0, watermark := iechdrSize }
      else { r with watermark := r.left.toNat, session := ops.iecsockClose r.session }
    else { r with watermark := r.left.toNat }

/-- `left` is not zero: read what is there of the rest of the frame. -/
def bodyRead (r : ReadState σ) : ReadState σ :=
  let got := r.input.take r.left.toNat
  let r := { r with
    buf := store r.buf r.len.toNat got
    input := r.input.drop r.left.toNat
    left := r.left - UInt8.ofNat got.length
    len := r.len + UInt8.ofNat got.length }
  if r.left ≠ 0 then r
  else
    let (ret, r) := dispatch ops r
    let r := if ret ≠ 0 then { r with session := ops.iecsockClose r.session } else r
    { r with left := 0, len := 0, watermark := iechdrSize }

def iecsockBufferRead (r : ReadState σ) : ReadState σ :=
  if r.left = 0 then headerRead ops r else bodyRead ops r

/-- The loop of `bufreadcb`. Each turn takes at least one octet off a non-empty
input, so the length of the input is fuel enough. -/
def readLoop : Nat → ReadState σ → ReadState σ
  | 0, r => r
  | fuel + 1, r =>
      if r.input = [] ∨ r.aborted then r else readLoop fuel (iecsockBufferRead ops r)

def bufreadcb (r : ReadState σ) : ReadState σ := readLoop ops r.input.length r

/-- Octets arrive, or the read callback runs. -/
inductive ReadEvent where
  | arrive (chunk : List UInt8)
  | readcb

def readStep (r : ReadState σ) : ReadEvent → ReadState σ
  | .arrive chunk => { r with input := r.input ++ chunk }
  | .readcb => if r.aborted then r else bufreadcb ops r

def readRun (session : σ) (es : List ReadEvent) : ReadState σ :=
  es.foldl (readStep ops) (ReadState.fresh session)

end Reader

def arrived (es : List ReadEvent) : List UInt8 :=
  es.flatMap fun
    | .arrive chunk => chunk
    | .readcb => []

/-- Repeatedly six header octets, then `length - 4` octets of body. -/
def referenceFrames : Nat → List UInt8 → List (List UInt8)
  | 0, _ => []
  | fuel + 1, bytes =>
      let size := iechdrSize + ((bytes.getD 1 0).toNat - iec104CtrlLen)
      if size ≤ bytes.length then bytes.take size :: referenceFrames fuel (bytes.drop size) else []

def referenceParse (stream : List UInt8) : List (List UInt8) := referenceFrames stream.length stream

section Parse

def Shaped (f : List UInt8) : Prop :=
  iec104CtrlLen ≤ (f.getD 1 0).toNat ∧ f.length = (f.getD 1 0).toNat + 2

private theorem referenceFrames_prefix {frames : List (List UInt8)} {rest : List UInt8} {fuel : Nat}
    (shaped : ∀ f ∈ frames, Shaped f) (enough : frames.flatten.length ≤ fuel) :
    frames <+: referenceFrames fuel (frames.flatten ++ rest) := by
  induction frames generalizing fuel with
  | nil => exact List.nil_prefix
  | cons f frames ih =>
    obtain ⟨least, size⟩ := shaped f List.mem_cons_self
    have octets : (f :: frames).flatten ++ rest = f ++ (frames.flatten ++ rest) := by simp
    have second : (f ++ (frames.flatten ++ rest)).getD 1 0 = f.getD 1 0 :=
      List.getD_append _ _ _ _ (by omega)
    simp only [iec104CtrlLen] at least
    simp only [List.flatten_cons, List.length_append] at enough
    cases fuel with
    | zero => omega
    | succ fuel =>
      rw [octets, referenceFrames]
      simp only [second, iechdrSize, iec104CtrlLen]
      have whole : 6 + ((f.getD 1 0).toNat - 4) = f.length := by omega
      rw [whole, if_pos (by simp), List.take_left, List.drop_left]
      apply List.cons_prefix_cons.mpr
      exact ⟨rfl, ih (fun g member => shaped g (List.mem_cons_of_mem _ member)) (by omega)⟩

theorem referenceParse_prefix {frames : List (List UInt8)} {rest : List UInt8}
    (shaped : ∀ f ∈ frames, Shaped f) :
    frames <+: referenceParse (frames.flatten ++ rest) :=
  referenceFrames_prefix shaped (by simp)

end Parse

def cleanCalls {σ : Type} (r : ReadState σ) : List FrameCall := r.calls.filter FrameCall.clean

/-- The call finds a whole frame that fits the session buffer. -/
structure Sized (c : FrameCall) : Prop where
  room : c.buf.length = iec104BufLen
  least : iec104CtrlLen ≤ c.length.toNat
  most : c.length.toNat ≤ iecApduMax
  len : c.len.toNat = c.length.toNat + 2

private theorem Sized.shaped {c : FrameCall} (h : Sized c) : Shaped c.frame := by
  have room := h.room
  have least := h.least
  have most := h.most
  have len := h.len
  simp only [iec104BufLen, iec104CtrlLen, iecApduMax] at room least most
  have second : c.frame.getD 1 0 = c.length := by
    rw [FrameCall.frame, FrameCall.length, List.getD_eq_getElem?_getD, List.getElem?_take,
      if_pos (by omega), List.getD_eq_getElem?_getD]
  refine ⟨by rw [second]; exact h.least, ?_⟩
  rw [second, FrameCall.frame, List.length_take]
  omega

/-- The two modes between callbacks: waiting for a header, or `left` octets short
of a frame whose first `len` octets are in the buffer. -/
structure Framed {σ : Type} (r : ReadState σ) : Prop where
  room : r.buf.length = iec104BufLen
  idle : r.left = 0 → r.len = 0
  least : r.left ≠ 0 → iec104CtrlLen ≤ (r.buf.getD 1 0).toNat
  most : r.left ≠ 0 → (r.buf.getD 1 0).toNat ≤ iecApduMax
  header : r.left ≠ 0 → iechdrSize ≤ r.len.toNat
  short : r.left ≠ 0 → r.len.toNat + r.left.toNat = (r.buf.getD 1 0).toNat + 2

/-- The octets so far are the frames handed over, the one in the buffer and the
rest of the input. After a failure only the frames handed over are known. -/
structure Traced {σ : Type} (r : ReadState σ) (stream : List UInt8) : Prop where
  sized : ∀ c ∈ cleanCalls r, Sized c
  parsed : ∃ rest, stream = ((cleanCalls r).map FrameCall.frame).flatten ++ rest
  whole : r.sound = true → ∀ c ∈ r.calls, c.clean = true
  framed : r.sound = true → Framed r
  buffered : r.sound = true → stream =
    ((cleanCalls r).map FrameCall.frame).flatten ++ (r.buf.take r.len.toNat ++ r.input)

section Trace

variable {σ : Type} {ops : Handlers σ} {r : ReadState σ} {stream : List UInt8}

private theorem read_unsound (ops : Handlers σ) (broken : r.sound = false) :
    cleanCalls (iecsockBufferRead ops r) = cleanCalls r ∧
      (iecsockBufferRead ops r).sound = false := by
  unfold iecsockBufferRead headerRead bodyRead
  simp only
  split_ifs <;> simp [cleanCalls, dispatch, broken]

private theorem Traced.broken {r' : ReadState σ} (h : Traced r stream)
    (same : cleanCalls r' = cleanCalls r) (broken : r'.sound = false) : Traced r' stream := by
  have never (sound : r'.sound = true) : False := by
    rw [broken] at sound
    cases sound
  refine ⟨?_, ?_, fun sound => (never sound).elim, fun sound => (never sound).elim,
    fun sound => (never sound).elim⟩
  · rw [same]
    exact h.sized
  · rw [same]
    exact h.parsed

private theorem dispatched (sized : ∀ c ∈ cleanCalls r, Sized c)
    (clean : ∀ c ∈ r.calls, c.clean = true)
    (buffered : stream =
      ((cleanCalls r).map FrameCall.frame).flatten ++ (r.buf.take r.len.toNat ++ r.input))
    (whole : Sized ⟨r.buf, r.len, true⟩) {r' : ReadState σ}
    (logged : r'.calls = r.calls ++ [⟨r.buf, r.len, true⟩])
    (input : r'.input = r.input) (room : r'.buf.length = iec104BufLen)
    (reset : r'.sound = true → r'.left = 0 ∧ r'.len = 0) :
    Traced r' stream := by
  have calls : cleanCalls r' = cleanCalls r ++ [⟨r.buf, r.len, true⟩] := by
    simp [cleanCalls, logged]
  have octets : stream =
      ((cleanCalls r').map FrameCall.frame).flatten ++ r.input := by
    rw [buffered, calls]
    simp [FrameCall.frame]
  refine ⟨?_, ⟨_, octets⟩, fun _ => ?_, ?_, ?_⟩
  · intro c member
    rw [calls] at member
    rcases List.mem_append.mp member with old | new
    · exact sized c old
    · obtain rfl := List.mem_singleton.mp new
      exact whole
  · intro c member
    rw [logged] at member
    rcases List.mem_append.mp member with old | new
    · exact clean c old
    · obtain rfl := List.mem_singleton.mp new
      rfl
  · intro still
    obtain ⟨left, len⟩ := reset still
    exact ⟨room, fun _ => len, fun more => absurd left more, fun more => absurd left more,
      fun more => absurd left more, fun more => absurd left more⟩
  · intro still
    rw [(reset still).2, input]
    simpa using octets

theorem length_store {buf bytes : List UInt8} {offset : Nat}
    (fits : offset + bytes.length ≤ buf.length) : (store buf offset bytes).length = buf.length := by
  simp only [store, List.length_append, List.length_take, List.length_drop]
  omega

theorem take_store {buf : List UInt8} {offset : Nat} (bytes : List UInt8) (inside : offset ≤ buf.length) :
    (store buf offset bytes).take (offset + bytes.length) = buf.take offset ++ bytes := by
  have size : (buf.take offset ++ bytes).length = offset + bytes.length := by
    simp only [List.length_append, List.length_take]
    omega
  rw [store, ← size, List.take_left]

theorem toNat_sub_control {octet : UInt8} (least : iec104CtrlLen ≤ octet.toNat) :
    (octet - 4).toNat = octet.toNat - iec104CtrlLen := by
  rw [UInt8.toNat_sub_of_le]
  · rfl
  · exact UInt8.le_iff_toNat_le.mpr least

theorem toNat_sub_taken (left : UInt8) (input : List UInt8) :
    (left - UInt8.ofNat (input.take left.toNat).length).toNat =
      left.toNat - (input.take left.toNat).length := by
  have taken : (input.take left.toNat).length ≤ left.toNat := List.length_take_le _ _
  have small := left.toNat_lt
  rw [UInt8.toNat_sub, UInt8.toNat_ofNat']
  omega

private theorem header_sized {buf : List UInt8} (kept : buf.length = iec104BufLen)
    (four : (buf.getD 1 0).toNat = 4) : Sized ⟨buf, 6, true⟩ := by
  refine ⟨kept, ?_, ?_, ?_⟩
  · simp only [FrameCall.length, iec104CtrlLen]
    omega
  · simp only [FrameCall.length, iecApduMax]
    omega
  · simp only [FrameCall.length, UInt8.reduceToNat]
    omega

/-- Waiting for a header: either something fails now, or the header is the start
of a frame that fits. -/
private theorem header_traced (h : Traced r stream) (sound : r.sound = true)
    (waiting : r.left = 0) : Traced (headerRead ops r) stream := by
  have framed := h.framed sound
  have buffered := h.buffered sound
  have room := framed.room
  have len := framed.idle waiting
  simp only [iec104BufLen] at room
  rw [len] at buffered
  unfold headerRead
  simp only
  split
  · exact h.broken rfl rfl
  · rename_i got
    have six : (r.input.take iechdrSize).length = 6 := not_not.mp got
    by_cases bad : badHeader (store r.buf 0 (r.input.take iechdrSize))
    · simp only [if_pos bad]
      split_ifs <;> exact h.broken (by simp [cleanCalls, dispatch]) (by simp [dispatch])
    · simp only [if_neg bad]
      have stored : (store r.buf 0 (r.input.take iechdrSize)).take 6 = r.input.take iechdrSize := by
        have taken := take_store (r.input.take iechdrSize) (Nat.zero_le r.buf.length)
        rw [six] at taken
        simpa using taken
      have kept : (store r.buf 0 (r.input.take iechdrSize)).length = 255 := by
        rw [length_store (by omega)]
        exact room
      have octets : stream = ((cleanCalls r).map FrameCall.frame).flatten ++
          ((store r.buf 0 (r.input.take iechdrSize)).take 6 ++ r.input.drop iechdrSize) := by
        rw [stored, List.take_append_drop]
        simpa using buffered
      generalize store r.buf 0 (r.input.take iechdrSize) = buf at bad stored kept octets ⊢
      simp only [badHeader, iecApduMin, iecApduMax, not_or, not_lt, not_not] at bad
      obtain ⟨_, least, most⟩ := bad
      have rest := toNat_sub_control least
      simp only [iec104CtrlLen] at rest least
      split
      · rename_i last
        have four : (buf.getD 1 0).toNat = 4 := by
          have zero : (buf.getD 1 0 - 4).toNat = 0 := by rw [last]; rfl
          omega
        refine dispatched (r := { r with
          buf := buf
          input := r.input.drop iechdrSize
          left := buf.getD 1 0 - 4
          len := 6 }) h.sized (h.whole sound) octets (header_sized kept four) ?_ ?_ ?_ ?_
        · split_ifs <;> simp [dispatch, sound]
        · split_ifs <;> rfl
        · split_ifs <;> exact kept
        · split_ifs with ret
          · intro _
            exact ⟨rfl, rfl⟩
          · intro still
            simp only [dispatch, Bool.and_eq_true, beq_iff_eq] at still
            exact absurd still.2 ret
      · rename_i more
        refine ⟨h.sized, h.parsed, h.whole, fun _ => ?_, fun _ => octets⟩
        refine ⟨kept, fun none => absurd none more, fun _ => least, fun _ => most, fun _ => le_rfl, ?_⟩
        intro _
        simp only [UInt8.reduceToNat]
        omega

private theorem body_traced (h : Traced r stream) (sound : r.sound = true)
    (partly : r.left ≠ 0) : Traced (bodyRead ops r) stream := by
  have framed := h.framed sound
  have room := framed.room
  have least := framed.least partly
  have most := framed.most partly
  have header := framed.header partly
  have short := framed.short partly
  have buffered := h.buffered sound
  simp only [iec104BufLen, iec104CtrlLen, iecApduMax, iechdrSize] at room least most header
  have taken : (r.input.take r.left.toNat).length ≤ r.left.toNat := List.length_take_le _ _
  have left := toNat_sub_taken r.left r.input
  have len : (r.len + UInt8.ofNat (r.input.take r.left.toNat).length).toNat =
      r.len.toNat + (r.input.take r.left.toNat).length := by
    rw [UInt8.toNat_add, UInt8.toNat_ofNat']
    omega
  have within : r.len.toNat ≤ r.buf.length := by omega
  have stored := take_store (r.input.take r.left.toNat) within
  have kept : (store r.buf r.len.toNat (r.input.take r.left.toNat)).length = 255 := by
    rw [length_store (by omega)]
    exact room
  have second : (store r.buf r.len.toNat (r.input.take r.left.toNat)).getD 1 0 = r.buf.getD 1 0 := by
    rw [store, List.append_assoc, List.getD_append _ _ _ _ (by simp; omega),
      List.getD_eq_getElem?_getD, List.getElem?_take, if_pos (by omega),
      List.getD_eq_getElem?_getD]
  have octets : stream = ((cleanCalls r).map FrameCall.frame).flatten ++
      ((store r.buf r.len.toNat (r.input.take r.left.toNat)).take
        (r.len + UInt8.ofNat (r.input.take r.left.toNat).length).toNat ++
          r.input.drop r.left.toNat) := by
    rw [len, stored, List.append_assoc, List.take_append_drop]
    exact buffered
  unfold bodyRead
  simp only
  split
  · rename_i more
    refine ⟨h.sized, h.parsed, h.whole, fun _ => ?_, fun _ => octets⟩
    refine ⟨kept, fun none => absurd none more, fun _ => ?_, fun _ => ?_, fun _ => ?_, fun _ => ?_⟩
    · rw [second]
      exact least
    · rw [second]
      exact most
    · simp only [iechdrSize]
      omega
    · simp only [second]
      omega
  · rename_i last
    have ended : (r.left - UInt8.ofNat (r.input.take r.left.toNat).length).toNat = 0 := by
      rw [not_not.mp last]
      rfl
    have whole : Sized ⟨store r.buf r.len.toNat (r.input.take r.left.toNat),
        r.len + UInt8.ofNat (r.input.take r.left.toNat).length, true⟩ := by
      refine ⟨kept, ?_, ?_, ?_⟩
      · simp only [FrameCall.length, second, iec104CtrlLen]
        exact least
      · simp only [FrameCall.length, second, iecApduMax]
        exact most
      · simp only [FrameCall.length, second]
        omega
    refine dispatched (r := { r with
      buf := store r.buf r.len.toNat (r.input.take r.left.toNat)
      input := r.input.drop r.left.toNat
      left := r.left - UInt8.ofNat (r.input.take r.left.toNat).length
      len := r.len + UInt8.ofNat (r.input.take r.left.toNat).length }) h.sized (h.whole sound) octets
      whole ?_ ?_ ?_ ?_
    · split_ifs <;> simp [dispatch, sound]
    · split_ifs <;> rfl
    · split_ifs <;> exact kept
    · intro _
      split_ifs <;> exact ⟨rfl, rfl⟩

private theorem read_traced (h : Traced r stream) : Traced (iecsockBufferRead ops r) stream := by
  cases sound : r.sound with
  | false =>
    obtain ⟨same, broken⟩ := read_unsound ops sound
    exact h.broken same broken
  | true =>
    unfold iecsockBufferRead
    split
    · exact header_traced h sound ‹_›
    · exact body_traced h sound ‹_›

private theorem readLoop_traced (fuel : Nat) (h : Traced r stream) :
    Traced (readLoop ops fuel r) stream := by
  induction fuel generalizing r with
  | zero => exact h
  | succ fuel ih =>
    unfold readLoop
    split
    · exact h
    · exact ih (read_traced h)

private theorem Traced.arrive (h : Traced r stream) (chunk : List UInt8) :
    Traced { r with input := r.input ++ chunk } (stream ++ chunk) := by
  obtain ⟨rest, octets⟩ := h.parsed
  refine ⟨h.sized, ⟨rest ++ chunk, ?_⟩, h.whole, fun sound => { h.framed sound with }, fun sound => ?_⟩
  · rw [octets, List.append_assoc]
    rfl
  · rw [h.buffered sound]
    simp [cleanCalls]

private theorem readStep_traced (ops : Handlers σ) (h : Traced r stream) (e : ReadEvent) :
    Traced (readStep ops r e) (stream ++ arrived [e]) := by
  cases e with
  | arrive chunk => simpa [arrived, readStep] using h.arrive chunk
  | readcb =>
    simp only [readStep, arrived, List.flatMap_singleton, List.append_nil]
    split
    · exact h
    · exact readLoop_traced _ h

private theorem readRun_traced (h : Traced r stream) (es : List ReadEvent) :
    Traced (es.foldl (readStep ops) r) (stream ++ arrived es) := by
  induction es generalizing r stream with
  | nil => simpa [arrived] using h
  | cons e es ih =>
    have next := ih (readStep_traced ops h e)
    rw [List.append_assoc] at next
    simpa [arrived] using next

private theorem fresh_traced (session : σ) : Traced (ReadState.fresh session) [] := by
  refine ⟨?_, ⟨[], rfl⟩, fun _ => ?_, fun _ => ?_, fun _ => rfl⟩
  · intro c member
    cases member
  · intro c member
    cases member
  · exact ⟨List.length_replicate, fun _ => rfl, fun more => absurd rfl more, fun more => absurd rfl more,
      fun more => absurd rfl more, fun more => absurd rfl more⟩

end Trace

theorem headerRead_input {σ : Type} (ops : Handlers σ) (r : ReadState σ) :
    (headerRead ops r).input = r.input.drop iechdrSize := by
  unfold headerRead dispatch
  by_cases bad : badHeader (store r.buf 0 (r.input.take iechdrSize))
  · simp only [if_pos bad]
    split_ifs <;> rfl
  · simp only [if_neg bad]
    split_ifs <;> rfl

/-- Each turn of the loop consumes input, so the callback ends with none left
unless a header came up short. -/
theorem bufreadcb_drains {σ : Type} (ops : Handlers σ) (r : ReadState σ) :
    (bufreadcb ops r).input = [] ∨ (bufreadcb ops r).aborted = true := by
  have shrinks (r : ReadState σ) (some : r.input ≠ []) :
      (iecsockBufferRead ops r).input.length < r.input.length := by
    have pos := List.length_pos_iff.mpr some
    unfold iecsockBufferRead
    split
    · rw [headerRead_input, List.length_drop, iechdrSize]
      omega
    · rename_i partly
      have more : 0 < r.left.toNat := by
        rcases Nat.eq_zero_or_pos r.left.toNat with zero | more
        · exact absurd (UInt8.toNat_inj.mp zero) partly
        · exact more
      unfold bodyRead dispatch
      simp only
      split_ifs <;> simp only [List.length_drop] <;> omega
  have loop (fuel : Nat) (r : ReadState σ) (enough : r.input.length ≤ fuel) :
      (readLoop ops fuel r).input = [] ∨ (readLoop ops fuel r).aborted = true := by
    induction fuel generalizing r with
    | zero => exact .inl (List.length_eq_zero_iff.mp (Nat.le_zero.mp enough))
    | succ fuel ih =>
      unfold readLoop
      split
      · assumption
      · rename_i going
        obtain ⟨some, _⟩ := not_or.mp going
        have less := shrinks r some
        exact ih _ (by omega)
  exact loop _ r le_rfl

/-- For every chunking of every stream and every handler: the frames of the clean
calls are a prefix of the reference parse of all that arrived, each such call finds
a whole frame in a buffer of its full size, and the buffer keeps that size as long
as nothing failed. -/
theorem framing_never_slips {σ : Type} (ops : Handlers σ) (session : σ) (es : List ReadEvent) :
    let r := readRun ops session es
    (cleanCalls r).map FrameCall.frame <+: referenceParse (arrived es) ∧
      (∀ c ∈ cleanCalls r, c.len.toNat = c.length.toNat + 2 ∧ c.length.toNat + 2 ≤ 255 ∧
        c.buf.length = 255) ∧
      (r.sound = true → cleanCalls r = r.calls ∧ r.buf.length = 255) := by
  intro r
  have traced : Traced r (arrived es) := readRun_traced (fresh_traced session) es
  refine ⟨?_, ?_, ?_⟩
  · obtain ⟨rest, octets⟩ := traced.parsed
    rw [octets]
    apply referenceParse_prefix
    intro f member
    obtain ⟨c, clean, rfl⟩ := List.mem_map.mp member
    exact (traced.sized c clean).shaped
  · intro c member
    have sized := traced.sized c member
    have most := sized.most
    rw [iecApduMax] at most
    exact ⟨sized.len, by omega, sized.room⟩
  · intro sound
    exact ⟨List.filter_eq_self.mpr (traced.whole sound), (traced.framed sound).room⟩

section Session

/-- The frame `iecsock_frame_recv` copies out of the session buffer. -/
def apduOf (buf : List UInt8) : Apdu :=
  ⟨⟨buf.getD 0 0, buf.getD 1 0, buf.getD 2 0, buf.getD 3 0, buf.getD 4 0, buf.getD 5 0⟩,
    (buf.drop iechdrSize).take ((buf.getD 1 0).toNat + 2 - iechdrSize)⟩

/-- The reader over a session: `bufreadcb` passes `iecsock_frame_recv`. -/
def iecsockHandlers (script : HookScript) : Handlers Station where
  frameRecv buf _ x := iecsockFrameRecv script.hooks x (apduOf buf)
  iecsockClose x := (Session.iecsockClose x.1, x.2)

variable {script : HookScript} {start : Station} {r : ReadState Station}

/-- The session is what the frames handed over so far have made of it. -/
def Replayed (script : HookScript) (start : Station) (r : ReadState Station) : Prop :=
  r.sound = true →
    r.session = (r.calls.map fun c => apduOf c.buf).foldl (recvFrame script) start

private theorem Replayed.dispatch (h : Replayed script start r)
    (sound : (dispatch (iecsockHandlers script) r).2.sound = true) :
    (dispatch (iecsockHandlers script) r).2.session =
      ((dispatch (iecsockHandlers script) r).2.calls.map fun c => apduOf c.buf).foldl
        (recvFrame script) start := by
  simp only [Reader.dispatch, Bool.and_eq_true, beq_iff_eq] at sound ⊢
  rw [List.map_append, List.foldl_append, ← h sound.1]
  have taken : (iecsockFrameRecv script.hooks r.session (apduOf r.buf)).1 = 0 := sound.2
  simp [recvFrame, taken, iecsockHandlers]

private theorem read_replayed (h : Replayed script start r) :
    Replayed script start (iecsockBufferRead (iecsockHandlers script) r) := by
  intro sound
  unfold iecsockBufferRead at sound ⊢
  split at sound
  · rename_i waiting
    rw [if_pos waiting]
    unfold headerRead at sound ⊢
    simp only at sound ⊢
    by_cases bad : badHeader (store r.buf 0 (r.input.take iechdrSize))
    · simp only [if_pos bad] at sound
      split_ifs at sound <;> simp [Reader.dispatch] at sound
    · simp only [if_neg bad] at sound ⊢
      split_ifs at sound ⊢
      · exact Replayed.dispatch (r := { r with
          buf := store r.buf 0 (r.input.take iechdrSize)
          input := r.input.drop iechdrSize
          left := _
          len := 6 }) h sound
      · rename_i ret
        simp only [Reader.dispatch, Bool.and_eq_true, beq_iff_eq] at sound ret
        exact absurd sound.2 ret
      · exact h sound
  · rename_i partly
    rw [if_neg partly]
    unfold bodyRead at sound ⊢
    simp only at sound ⊢
    split_ifs at sound ⊢
    · exact h sound
    · rename_i ret
      simp only [Reader.dispatch, Bool.and_eq_true, beq_iff_eq] at sound ret
      exact absurd sound.2 ret
    · exact Replayed.dispatch (r := { r with
        buf := _
        input := r.input.drop r.left.toNat
        left := _
        len := _ }) h sound

private theorem readLoop_replayed (fuel : Nat) (h : Replayed script start r) :
    Replayed script start (readLoop (iecsockHandlers script) fuel r) := by
  induction fuel generalizing r with
  | zero => exact h
  | succ fuel ih =>
    unfold readLoop
    split
    · exact h
    · exact ih (read_replayed h)

theorem readRun_replayed (script : HookScript) (start : Station) (es : List ReadEvent) :
    Replayed script start (readRun (iecsockHandlers script) start es) := by
  have all (r : ReadState Station) (h : Replayed script start r) :
      Replayed script start (es.foldl (readStep (iecsockHandlers script)) r) := by
    induction es generalizing r with
    | nil => exact h
    | cons e es ih =>
      apply ih
      cases e with
      | arrive chunk => exact h
      | readcb =>
        simp only [readStep]
        split
        · exact h
        · exact readLoop_replayed _ h
  exact all _ fun _ => rfl

end Session

end IecUtils.Link.Reader
