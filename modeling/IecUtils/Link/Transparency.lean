/- Module: IecUtils/Link/Transparency
   source: stdin_read, iec_asdu_send, data_received_hook of ieclink/ieclink.c; ieclink/iecsock.c
   digest: A line of hex digits on one ieclink's standard input against the line another one prints. -/

import IecUtils.Link.Handover
import IecUtils.Link.HexLine
import IecUtils.Link.SendWindow

set_option autoImplicit false
set_option relaxedAutoImplicit false

namespace IecUtils.Link.Transparency

open IecUtils.Foundation.Lines
open IecUtils.Foundation.SequenceNumber
open IecUtils.Link.Frame
open IecUtils.Link.Session
open IecUtils.Link.Handling
open IecUtils.Link.SendWindow
open IecUtils.Link.Ieclink
open IecUtils.Link.Stdin
open IecUtils.Link.HexLine
open IecUtils.Link.Reader (Handlers ReadState ReadEvent readStep arrived apduOf toNat_sub_control)
open IecUtils.Link.Handover

section Text

/-- A digit of `%02X`. -/
def upperDigit (n : Nat) : UInt8 := if n < 10 then UInt8.ofNat (48 + n) else UInt8.ofNat (55 + n)

def printHex (bytes : List UInt8) : List UInt8 :=
  bytes.flatMap fun b => [upperDigit (b.toNat / 16), upperDigit (b.toNat % 16)]

def toupper (c : UInt8) : UInt8 := if 97 ≤ c ∧ c ≤ 122 then c - 32 else c

def text : Line → List UInt8
  | .confirm => [60, 10]
  | .activated => [43, 10]
  | .disconnected => [45, 10]
  | .data bytes => printHex bytes ++ [10]

private theorem upperDigit_ofNat :
    ∀ n < 256, isHex (UInt8.ofNat n) = true →
      hexValue (UInt8.ofNat n) < 16 ∧
        upperDigit (hexValue (UInt8.ofNat n)) = toupper (UInt8.ofNat n) := by
  decide +kernel

theorem upperDigit_hexValue {b : UInt8} (hex : isHex b = true) :
    hexValue b < 16 ∧ upperDigit (hexValue b) = toupper b := by
  have all := upperDigit_ofNat b.toNat b.toNat_lt
  rw [UInt8.ofNat_toNat] at all
  exact all hex

theorem printHex_octetsOf {line : List UInt8} (hex : HexString line) :
    printHex (octetsOf line) = line.map toupper := by
  induction line using octetsOf.induct with
  | case1 => rfl
  | case2 b => cases hex.even
  | case3 hi lo rest ih =>
    have even := hex.even
    obtain ⟨high, upperHigh⟩ := upperDigit_hexValue (hex.digits hi (by simp))
    obtain ⟨low, upperLow⟩ := upperDigit_hexValue (hex.digits lo (by simp))
    have later : HexString rest := by
      refine ⟨fun b member => hex.digits b (by simp [member]), ?_⟩
      simp only [List.length_cons] at even
      omega
    have value : (UInt8.ofNat (hexValue hi * 16 + hexValue lo)).toNat =
        hexValue hi * 16 + hexValue lo := by
      rw [UInt8.toNat_ofNat']
      omega
    have quotient : (hexValue hi * 16 + hexValue lo) / 16 = hexValue hi := by omega
    have remainder : (hexValue hi * 16 + hexValue lo) % 16 = hexValue lo := by omega
    have tail := ih later
    rw [printHex] at tail
    rw [octetsOf, printHex, List.flatMap_cons, value, quotient, remainder, upperHigh, upperLow,
      tail]
    rfl

end Text

section Sender

variable {x : Process} {line : List UInt8}

/-- The window lets out what waits in `write_q` and one unit more. -/
def WindowOpen (s : Iecsock) : Prop :=
  ∀ i ≤ s.writeQ.length, (s.vs + i) % 32767 ≠ (s.va + s.k) % 32767

def nextNs (s : Iecsock) : Nat := (s.vs + s.writeQ.length) % 32767

theorem canQueue_of_open {s : Iecsock} (k : s.k < 32767) (va : s.va ≤ 32766) (vs : s.vs ≤ 32766)
    (opened : WindowOpen s) : iecsockCanQueue s ≠ 0 := by
  have free := opened 0 (Nat.zero_le _)
  rw [Nat.add_zero] at free
  unfold iecsockCanQueue seqDist
  rw [Int.tmod_eq_emod_of_nonneg (by omega)]
  omega

theorem writeLoop_last (q : List IecBuf) (b : IecBuf) (s : Iecsock) (vs : s.vs ≤ 32766)
    (opened : ∀ i ≤ q.length, (s.vs + i) % 32767 ≠ (s.va + s.k) % 32767) :
    ∃ earlier : List Apdu, earlier.length = q.length ∧
      (writeLoop (q ++ [b]) s).output =
        s.output ++ earlier ++ [(b.stamp s.vr ((s.vs + q.length) % 32767)).wire] := by
  induction q generalizing s with
  | nil =>
    have free := opened 0 le_rfl
    rw [Nat.add_zero, Nat.mod_eq_of_lt (by omega)] at free
    refine ⟨[], rfl, ?_⟩
    rw [List.nil_append, writeLoop, if_pos free, writeLoop, List.length_nil, Nat.add_zero,
      Nat.mod_eq_of_lt (by omega), List.append_nil]
    unfold transmitBuf
    split <;> rfl
  | cons c q ih =>
    have free := opened 0 (Nat.zero_le _)
    rw [Nat.add_zero, Nat.mod_eq_of_lt (by omega)] at free
    -- one buffer goes out, and the window is open for those behind it
    have sent : ∃ t : Iecsock, transmitBuf { s with writeQ := q ++ [b] } c = t ∧
        t.output = s.output ++ [(c.stamp s.vr s.vs).wire] ∧ t.vs = (s.vs + 1) % 32767 ∧
        t.vr = s.vr ∧ t.va = s.va ∧ t.k = s.k := by
      refine ⟨_, rfl, ?_⟩
      unfold transmitBuf
      split <;> exact ⟨rfl, rfl, rfl, rfl, rfl⟩
    obtain ⟨t, sent, output, number, vr, va, k⟩ := sent
    obtain ⟨earlier, length, last⟩ := ih t (by omega) (by
      intro i bound
      have later := opened (i + 1) (by simpa using bound)
      rw [number, va, k]
      omega)
    refine ⟨(c.stamp s.vr s.vs).wire :: earlier, by simp [length], ?_⟩
    have same : (t.vs + q.length) % 32767 = (s.vs + (c :: q).length) % 32767 := by
      rw [number, List.length_cons]
      omega
    rw [List.cons_append, writeLoop, if_pos free, sent, last, output, vr, same]
    simp

theorem stdinRead_line {first second : List UInt8} (buffered : x.2.rbuf = first)
    (same : line = first ++ second) (hex : HexString line) (short : line.length ≤ 498) :
    stdinRead [second ++ [10]] x =
      ((takeLine x line).1, { (takeLine x line).2 with rbuf := [] }) := by
  have lengths : line.length = first.length + second.length := by rw [same, List.length_append]
  have whole : (second ++ [10]).take (rbufSize - first.length) = second ++ [10] := by
    apply List.take_of_length_le
    rw [List.length_append, List.length_singleton, rbufSize]
    omega
  have bytes : first ++ (second ++ [10]) = line ++ 10 :: [] := by
    rw [same, List.append_assoc]
  have inside : 10 ∉ line := by
    intro member
    exact absurd (hex.digits 10 member) (by decide)
  have lines : cut 10 (line ++ 10 :: []) = ([line], []) := cut_line line [] inside
  have unmarked : marked [line] = false := by simp [marked, hex.not_mark]
  rw [stdinRead]
  simp only [buffered, whole, bytes]
  rw [if_neg (by simp), lineLoop_cut _ _ _ le_rfl, lines]
  simp only [unmarked, upToMark_unmarked unmarked, Bool.false_eq_true, if_false,
    List.foldl_cons, List.foldl_nil]
  split <;> rfl

def frameOf (u : Asdu) (ns nr : Nat) : Apdu := ((asduBuf u).stamp nr ns).wire

theorem frameOf_data (u : Asdu) (ns nr : Nat) : (frameOf u ns nr).data = u.bytes := by
  have size : ((asduBuf u).stamp nr ns).h.length.toNat = u.bytes.length + 4 := length_asduBuf u
  change u.bytes.take (((asduBuf u).stamp nr ns).h.length.toNat + 2 - iechdrSize) = u.bytes
  rw [size, iechdrSize]
  exact List.take_of_length_le (by omega)

theorem frameOf_header (u : Asdu) {ns nr : Nat} (small : ns ≤ 32766) (less : nr ≤ 32766) :
    frameType (frameOf u ns nr).h = .i ∧ (frameOf u ns nr).h.ns = ns ∧
      (frameOf u ns nr).h.nr = nr := by
  change frameType (((asduBuf u).h.setNr nr).setNs ns) = .i ∧ _
  refine ⟨?_, ?_, ?_⟩
  · rw [frameType_setNs, frameType_setNr]
    exact frameType_asduBuf u
  · change (((asduBuf u).h.setNr nr).setNs ns).ns = ns
    rw [Iechdr.ns_setNs]
    omega
  · change (((asduBuf u).h.setNr nr).setNs ns).nr = nr
    rw [Iechdr.nr_setNs, Iechdr.nr_setNr]
    omega

/-- A session of ieclink as `iecsock_connect` makes it, with its counters in range. -/
structure Linked (s : Iecsock) : Prop where
  master : s.type = .master
  opened : s.closed = false
  k : s.k < 32767
  va : s.va ≤ 32766
  vr : s.vr ≤ 32766
  vs : s.vs ≤ 32766
  vaPeer : s.vaPeer ≤ 32766

theorem Linked.not_gated {s : Iecsock} (h : Linked s) : ¬ s.gated := by
  rintro ⟨slave, _⟩
  rw [h.master] at slave
  cases slave

theorem stdinRead_sends {first second : List UInt8} (session : Linked x.1)
    (clear : x.2.asdubuf = noAsdu) (opened : WindowOpen x.1) (buffered : x.2.rbuf = first)
    (same : line = first ++ second) (well : HexLine.WellFormed line) :
    ∃ (u : Asdu) (earlier : List Apdu), u.bytes = octetsOf line ∧
      earlier.length = x.1.writeQ.length ∧
      (stdinRead [second ++ [10]] x).1.output =
        x.1.output ++ earlier ++ [frameOf u (nextNs x.1) x.1.vr] := by
  have short := well.short
  have even := well.hex.even
  rw [iec104AsduMax] at short
  obtain ⟨u, unit, bytes⟩ := unitOf_hex well.hex well.nonempty
  have whole : u.bytes = octetsOf line := by
    rw [bytes, List.take_of_length_le]
    rw [octetsOf_length]
    exact well.short
  have room := canQueue_of_open session.k session.va session.vs opened
  have taken : takeLine x line = acceptAsdu x u := by
    rw [takeLine_data clear well.hex.not_mark, unit]
    rfl
  obtain ⟨earlier, length, output⟩ := writeLoop_last x.1.writeQ (asduBuf u)
    { x.1 with writeQ := x.1.writeQ ++ [asduBuf u] } session.vs opened
  refine ⟨u, earlier, whole, length, ?_⟩
  rw [stdinRead_line buffered same well.hex (by omega), taken, acceptAsdu, if_pos room]
  have runs : iecsockRunWriteQueue { x.1 with writeQ := x.1.writeQ ++ [asduBuf u] } =
      writeLoop (x.1.writeQ ++ [asduBuf u]) { x.1 with writeQ := x.1.writeQ ++ [asduBuf u] } :=
    if_neg session.not_gated
  exact (congrArg Iecsock.output runs).trans output

end Sender

section Kick

variable {x : Process} {k : Nat}

theorem iecAsduSend_window (asdu : Asdu) (small : k < 32767) (window : Window k x.1)
    (running : ¬ x.1.gated) :
    let sent := min (x.1.writeQ.length + 1) (k - wrapDist 32767 x.1.vs x.1.va)
    Window k (iecAsduSend x asdu).1 ∧ ¬ (iecAsduSend x asdu).1.gated ∧
      (iecAsduSend x asdu).1.writeQ.length = x.1.writeQ.length + 1 - sent ∧
      wrapDist 32767 (iecAsduSend x asdu).1.vs (iecAsduSend x asdu).1.va =
        wrapDist 32767 x.1.vs x.1.va + sent := by
  intro sent
  have queued : Window k { x.1 with writeQ := x.1.writeQ ++ [asduBuf asdu] } :=
    window.congr rfl rfl rfl
  have length : (x.1.writeQ ++ [asduBuf asdu]).length = x.1.writeQ.length + 1 := by simp
  have loop := writeLoop_eq small (x.1.writeQ ++ [asduBuf asdu]) _ queued rfl
  have runs : (iecAsduSend x asdu).1 =
      afterBurst { x.1 with writeQ := x.1.writeQ ++ [asduBuf asdu] }
        (x.1.writeQ ++ [asduBuf asdu]) sent := by
    rw [length] at loop
    exact (if_neg running).trans loop
  have bound := window.bound
  have edge := window.va_le
  have number := window.vs_lt
  have far : wrapDist 32767 ((x.1.vs + sent) % 32767) x.1.va =
      wrapDist 32767 x.1.vs x.1.va + sent := by
    have less : sent ≤ k - wrapDist 32767 x.1.vs x.1.va := min_le_right _ _
    unfold wrapDist at bound less ⊢
    omega
  rw [runs]
  refine ⟨⟨window.option, window.va_le, Nat.mod_lt _ (by decide), ?_⟩, running, ?_, far⟩
  · change wrapDist 32767 ((x.1.vs + sent) % 32767) x.1.va ≤ k
    have less : sent ≤ k - wrapDist 32767 x.1.vs x.1.va := min_le_right _ _
    omega
  · change ((x.1.writeQ ++ [asduBuf asdu]).drop sent).length = _
    rw [List.length_drop, length]

/-- The callback sends its whole list if and only if the window has room for it behind the
queue; a single unit is queued behind it in any case. -/
theorem kickLoop_empties (list : List Asdu) (small : k < 32767) (window : Window k x.1)
    (running : ¬ x.1.gated) :
    (kickLoop list x).1 = [] ↔
      list = [] ∨ wrapDist 32767 x.1.vs x.1.va < k ∧ (list.length = 1 ∨
        x.1.writeQ.length + list.length ≤ k - wrapDist 32767 x.1.vs x.1.va) := by
  induction list generalizing x with
  | nil => simp [kickLoop]
  | cons asdu list ih =>
    have bound := window.bound
    rw [kickLoop, window.canQueue small]
    by_cases full : k - wrapDist 32767 x.1.vs x.1.va = 0
    · rw [if_neg (not_not.mpr full)]
      simp only [List.cons_ne_nil, false_or, false_iff]
      omega
    · obtain ⟨after, open', queue, far⟩ := iecAsduSend_window asdu small window running
      rw [if_pos full, ih after open', queue, far, ← List.length_eq_zero_iff]
      simp only [List.cons_ne_nil, false_or, List.length_cons]
      omega

theorem kickLoop_crashed (list : List Asdu) (x : Process) :
    (kickLoop list x).2.2.crashed = x.2.crashed := by
  induction list generalizing x with
  | nil => rfl
  | cons asdu list ih =>
    unfold kickLoop
    split
    · exact ih (iecAsduSend x asdu)
    · rfl

theorem eventAdd_crashed (p : Program) :
    (eventAdd p).crashed = true ↔ p.crashed = true ∨ p.user = .unset := by
  unfold eventAdd
  cases p.user <;> simp

theorem eventAdd_stdout (p : Program) : (eventAdd p).stdout = p.stdout := by
  unfold eventAdd
  cases p.user <;> rfl

/-- The callback prints at most its confirmation, and it crashes on an event that was never
set if it gets so far as to add it. -/
theorem iecKickCallback_outcome (x : Process) :
    (∃ acks : List Line, (acks = [] ∨ acks = [.confirm]) ∧
      (iecKickCallback x).2.stdout = x.2.stdout ++ acks) ∧
    ((iecKickCallback x).2.crashed = true ↔
      x.2.crashed = true ∨ x.2.user = .unset ∧ (kickLoop x.2.asdulist x).1 = []) := by
  obtain ⟨_, stdout, user⟩ := kickLoop_sends x.2.asdulist x
  have crashed := kickLoop_crashed x.2.asdulist x
  unfold iecKickCallback
  simp only
  by_cases done : (kickLoop x.2.asdulist x).1 = []
  · by_cases ended : (kickLoop x.2.asdulist x).2.2.endmsg = false
    · rw [if_pos ⟨done, ended⟩]
      refine ⟨⟨[], .inl rfl, ?_⟩, ?_⟩
      · rw [eventAdd_stdout, List.append_nil]
        exact stdout
      · rw [eventAdd_crashed]
        simp only [crashed, user, done, and_true]
    · rw [if_neg (fun both => ended both.2), if_pos ⟨done, by simpa using ended⟩]
      refine ⟨⟨[.confirm], .inr rfl, ?_⟩, ?_⟩
      · simp only [eventAdd_stdout, stdout]
      · simp only [eventAdd_crashed, crashed, user, done, and_true]
  · rw [if_neg (fun both => done both.1), if_neg (fun both => done both.1)]
    refine ⟨⟨[], .inl rfl, by rw [List.append_nil]; exact stdout⟩, ?_⟩
    simp only [crashed, done, and_false, or_false]

end Kick

section Receiver

variable {y : Process}

/-- The acknowledgement makes the callback add the event on standard input, which
`activation_hook` has not set yet. -/
def Premature (y : Process) (nr : Nat) : Prop :=
  y.2.user = .unset ∧ nr = y.1.vs ∧
    (y.2.asdulist = [] ∨ 0 < y.1.k ∧ (y.2.asdulist.length = 1 ∨
      y.1.writeQ.length + y.2.asdulist.length ≤ y.1.k))

theorem kick_session (x : Process) :
    (iecKickCallback x).1.vr = x.1.vr ∧ (iecKickCallback x).1.closed = x.1.closed := by
  rw [iecKickCallback_session]
  refine Sends.keeps (I := fun t => t.vr = x.1.vr ∧ t.closed = x.1.closed) ?_
    (kickLoop_sends x.2.asdulist x).1 ⟨rfl, rfl⟩
  intro s t same change
  cases change with
  | enqueue asdu => exact same
  | @transmit b q queue opened room =>
    unfold transmitBuf
    split <;> exact same

theorem acked_outcome (session : Linked y.1) (running : y.2.crashed = false) (nr : Nat) :
    (ackedByIframe defaultHooks y nr).1.vr = y.1.vr ∧
      (ackedByIframe defaultHooks y nr).1.closed = false ∧
      (∃ acks : List Line, (acks = [] ∨ acks = [.confirm]) ∧
        (ackedByIframe defaultHooks y nr).2.stdout = y.2.stdout ++ acks) ∧
      ((ackedByIframe defaultHooks y nr).2.crashed = true ↔ Premature y nr) := by
  by_cases all : nr = y.1.vs
  · have woken : ackedByIframe defaultHooks y nr =
        iecKickCallback (t1TimerStop { heardFrame y.1 with va := nr }, y.2) := if_pos all
    obtain ⟨vr, closed⟩ := kick_session (t1TimerStop { heardFrame y.1 with va := nr }, y.2)
    obtain ⟨prints, crashes⟩ :=
      iecKickCallback_outcome (t1TimerStop { heardFrame y.1 with va := nr }, y.2)
    have number := session.vs
    have none : wrapDist 32767 y.1.vs nr = 0 := by
      unfold wrapDist
      omega
    have window : Window y.1.k (t1TimerStop { heardFrame y.1 with va := nr }) := by
      refine ⟨rfl, ?_, ?_, ?_⟩
      · change nr ≤ 32767
        omega
      · change y.1.vs < 32767
        omega
      · change wrapDist 32767 y.1.vs nr ≤ y.1.k
        omega
    have empties := kickLoop_empties (x := (t1TimerStop { heardFrame y.1 with va := nr }, y.2))
      y.2.asdulist session.k window session.not_gated
    rw [woken]
    refine ⟨vr, closed.trans session.opened, prints, ?_⟩
    rw [crashes, empties]
    change y.2.crashed = true ∨ y.2.user = .unset ∧ (_ ∨ wrapDist 32767 y.1.vs nr < y.1.k ∧
      (_ ∨ y.1.writeQ.length + _ ≤ y.1.k - wrapDist 32767 y.1.vs nr)) ↔ _
    rw [none, running]
    simp [Premature, all]
  · have waiting : ackedByIframe defaultHooks y nr = ({ heardFrame y.1 with va := nr }, y.2) :=
      if_neg all
    rw [waiting]
    refine ⟨rfl, session.opened, ⟨[], .inl rfl, (List.append_nil _).symm⟩, ?_⟩
    simp [Premature, all, running]

theorem frameRecv_prints (session : Linked y.1) (running : y.2.crashed = false) {f : Apdu}
    (info : frameType f.h = .i) (accepts : checkNr y.1 f.h.nr = true) (expects : f.h.ns = y.1.vr) :
    ∃ z : Process, iecsockFrameRecv defaultHooks y f = (0, z) ∧ z.1.closed = false ∧
      (∃ acks : List Line, (acks = [] ∨ acks = [.confirm]) ∧ z.2.stdout =
        y.2.stdout ++ acks ++ [.data (f.data.take (f.h.length - 4).toNat)]) ∧
      (z.2.crashed = true ↔ Premature y f.h.nr) := by
  obtain ⟨vr, opened, ⟨acks, short, stdout⟩, crashes⟩ := acked_outcome session running f.h.nr
  have handled := frameRecv_handled defaultHooks y f
  generalize iecsockFrameRecv defaultHooks y f = result at handled ⊢
  obtain ⟨ret, z⟩ := result
  cases handled with
  | ignored _ gated => exact absurd gated session.not_gated
  | badNr _ _ bad =>
    rw [accepts] at bad
    cases bad
  | badNs _ _ _ acked bad =>
    subst acked
    exact absurd (expects.trans vr.symm) bad
  | iframe _ _ _ acked _ =>
    subst acked
    refine ⟨_, rfl, ?_, ⟨acks, short, ?_⟩, crashes⟩
    · obtain ⟨vaPeer, out, same⟩ := counted_touches (ackedByIframe defaultHooks y f.h.nr).1
      change (counted (ackedByIframe defaultHooks y f.h.nr).1).closed = false
      rw [same]
      exact opened
    · exact congrArg (· ++ [Line.data (f.data.take (f.h.length - 4).toNat)]) stdout
  | sframe other | refused other | startact other | startcon other | stopact other
  | stopcon other | testact other | testcon other =>
    rw [info] at other
    cases other

end Receiver

section EndToEnd

def octets (f : Apdu) : List UInt8 :=
  [f.h.start, f.h.length, f.h.raw0, f.h.raw1, f.h.raw2, f.h.raw3] ++ f.data

def linkHandlers : Handlers Process where
  frameRecv buf _ x := iecsockFrameRecv defaultHooks x (apduOf buf)
  iecsockClose x := closeLink x

/-- The reader between two frames, whatever the last one left in the session buffer. -/
def between (buf : List UInt8) (y : Process) : ReadState Process :=
  { ReadState.fresh y with buf := buf }

/-- The reader has classified one frame, an information frame with these numbers, and the
process lives on and has printed the line, behind a confirmation perhaps. -/
structure Printed (line : List UInt8) (ns nr : Nat) (y : Process) (r : ReadState Process) :
    Prop where
  running : r.aborted = false
  opened : r.session.1.closed = false
  alive : r.session.2.crashed = false
  frame : ∃ c, r.calls = [c] ∧ frameType (apduOf c.buf).h = .i ∧ (apduOf c.buf).h.ns = ns ∧
    (apduOf c.buf).h.nr = nr
  lines : ∃ acks printed, (acks = [] ∨ acks = [.confirm]) ∧
    r.session.2.stdout = y.2.stdout ++ acks ++ [printed] ∧ text printed = line.map toupper ++ [10]

/-- The line whose last part is read now leaves in a frame of its own, and however its octets
reach a second process, that process prints the line in upper case. -/
def Carried (line last buf : List UInt8) (x y : Process) : Prop :=
  ∃ (earlier : List Apdu) (f : Apdu), earlier.length = x.1.writeQ.length ∧
    (stdinRead [last ++ [10]] x).1.output = x.1.output ++ earlier ++ [f] ∧
    ∀ es, Delivery (octets f) es →
      Printed line (nextNs x.1) x.1.vr y (es.foldl (readStep linkHandlers) (between buf y))

theorem apduOf_octets (f : Apdu) (tail : List UInt8)
    (size : f.h.length.toNat = f.data.length + 4) : apduOf (octets f ++ tail) = f := by
  have body : (f.data ++ tail).take (f.h.length.toNat + 2 - iechdrSize) = f.data := by
    rw [size, iechdrSize]
    exact List.take_left' (by omega)
  change Apdu.mk f.h ((f.data ++ tail).take (f.h.length.toNat + 2 - iechdrSize)) = f
  rw [body]

theorem frameOf_length (u : Asdu) (ns nr : Nat) :
    (frameOf u ns nr).h.length.toNat = (frameOf u ns nr).data.length + 4 := by
  rw [frameOf_data]
  exact length_asduBuf u

theorem frameOf_bodied (u : Asdu) (ns nr : Nat) (some : u.bytes ≠ []) :
    Bodied (octets (frameOf u ns nr)) := by
  have size := frameOf_length u ns nr
  have fits := u.fits
  have positive := List.length_pos_iff.mpr some
  have length : (octets (frameOf u ns nr)).length = u.bytes.length + 6 := by
    rw [octets, List.length_append, frameOf_data]
    simp only [List.length_cons, List.length_nil]
    omega
  have second : (octets (frameOf u ns nr)).getD 1 0 = (frameOf u ns nr).h.length := rfl
  rw [frameOf_data] at size
  rw [iec104AsduMax] at fits
  refine ⟨⟨rfl, ⟨?_, ?_⟩, ?_⟩, by omega⟩
  · rw [second, size, iec104CtrlLen]
    omega
  · rw [second, size, length]
  · rw [second, size, iecApduMax]
    omega

variable {x y : Process} {line first last buf : List UInt8}

theorem printed_iff {u : Asdu} {ns nr : Nat} {es : List ReadEvent} (bytes : u.bytes = octetsOf line)
    (well : HexLine.WellFormed line) (small : ns ≤ 32766) (less : nr ≤ 32766)
    (room : buf.length = iec104BufLen) (session : Linked y.1) (running : y.2.crashed = false)
    (expects : y.1.vr = ns) (accepts : checkNr y.1 nr = true)
    (delivery : Delivery (octets (frameOf u ns nr)) es) :
    Printed line ns nr y (es.foldl (readStep linkHandlers) (between buf y)) ↔ ¬ Premature y nr := by
  obtain ⟨info, number, ack⟩ := frameOf_header u small less
  have some : u.bytes ≠ [] := by
    have even := well.hex.even
    have positive := List.length_pos_iff.mpr well.nonempty
    apply List.ne_nil_of_length_pos
    rw [bytes, octetsOf_length]
    omega
  have start : Held y (octets (frameOf u ns nr)) [] (between buf y) :=
    ⟨rfl, rfl, rfl, room, List.nil_prefix, fun _ => ⟨rfl, rfl⟩, fun busy => absurd rfl busy⟩
  have handed := delivery_handed linkHandlers (frameOf_bodied u ns nr some) start delivery
  generalize es.foldl (readStep linkHandlers) (between buf y) = r at handed ⊢
  obtain ⟨session', len, clean, calls, whole, result⟩ := handed.call
  have frame : apduOf session' = frameOf u ns nr := by
    rw [← List.take_append_drop (octets (frameOf u ns nr)).length session', whole]
    exact apduOf_octets _ _ (frameOf_length u ns nr)
  obtain ⟨z, received, opened, ⟨acks, short, stdout⟩, crashes⟩ := frameRecv_prints session running
    info (by rw [ack]; exact accepts) (number.trans expects.symm)
  simp only [linkHandlers, frame, received] at result
  have after : r.session = z := by simpa using result
  have data :
      (frameOf u ns nr).data.take ((frameOf u ns nr).h.length - 4).toNat = octetsOf line := by
    have size := frameOf_length u ns nr
    rw [toNat_sub_control (by rw [size, iec104CtrlLen]; omega), size, iec104CtrlLen]
    rw [List.take_of_length_le (by omega), frameOf_data, bytes]
  rw [data] at stdout
  rw [ack] at crashes
  rw [← crashes]
  constructor
  · intro printed
    rw [← after, printed.alive]
    simp
  · intro alive
    refine ⟨handed.running, by rw [after]; exact opened, ?_, ⟨_, calls, ?_⟩, acks,
      .data (octetsOf line), short, ?_, ?_⟩
    · rw [after]
      simpa using alive
    · simp only [frame]
      exact ⟨info, number, ack⟩
    · rw [after]
      exact stdout
    · rw [text, printHex_octetsOf well.hex]

/-- A line of 2 to 498 hex digits whose last part is read now, a sender between two lines with an
open window, and a receiver that expects the number of the frame and accepts its
acknowledgement. -/
structure Paired (line last buf : List UInt8) (x y : Process) : Prop where
  well : HexLine.WellFormed line
  buffered : line = x.2.rbuf ++ last
  sender : Linked x.1
  clear : x.2.asdubuf = noAsdu
  window : WindowOpen x.1
  receiver : Linked y.1
  running : y.2.crashed = false
  room : buf.length = iec104BufLen
  expects : y.1.vr = nextNs x.1
  accepts : checkNr y.1 x.1.vr = true

theorem nextNs_le (s : Iecsock) : nextNs s ≤ 32766 := by
  unfold nextNs
  omega

theorem delivery_at_once {f : List UInt8} (long : iechdrSize ≤ f.length) :
    Delivery f [.arrive f, .readcb] := by
  refine ⟨by simp [arrived], ⟨[.arrive f], rfl⟩, ?_⟩
  intro before inside
  cases before with
  | nil => simp at inside
  | cons e before =>
    obtain ⟨rfl, rest⟩ := List.cons_prefix_cons.mp inside
    cases before with
    | nil => exact .inr (by simpa [arrived] using long)
    | cons e before =>
      have short := rest.length_le
      simp at short

theorem Carried.mature (pair : Paired line last buf x y) (carried : Carried line last buf x y) :
    ¬ Premature y x.1.vr := by
  obtain ⟨u, earlier, bytes, length, output⟩ :=
    stdinRead_sends pair.sender pair.clear pair.window rfl pair.buffered pair.well
  obtain ⟨earlier', f, length', output', prints⟩ := carried
  have lengths : (x.1.output ++ earlier).length = (x.1.output ++ earlier').length := by
    rw [List.length_append, List.length_append, length, length']
  obtain ⟨_, frame⟩ := List.append_inj (output.symm.trans output') lengths
  obtain rfl := List.singleton_inj.mp frame
  have long : iechdrSize ≤ (octets (frameOf u (nextNs x.1) x.1.vr)).length := by
    rw [octets, List.length_append]
    exact Nat.le_add_right _ _
  have delivery := delivery_at_once long
  exact (printed_iff bytes pair.well (nextNs_le x.1) pair.sender.vr pair.room pair.receiver
    pair.running pair.expects pair.accepts delivery).mp (prints _ delivery)

/-- The line is carried to the second process and printed there in upper case, if and only if
the frame does not make that process add its event on standard input before it is activated. -/
theorem carried_iff (pair : Paired line last buf x y) :
    Carried line last buf x y ↔ ¬ Premature y x.1.vr := by
  constructor
  · exact fun carried => carried.mature pair
  · intro mature
    obtain ⟨u, earlier, bytes, length, output⟩ :=
      stdinRead_sends pair.sender pair.clear pair.window rfl pair.buffered pair.well
    refine ⟨earlier, _, length, output, fun es delivery => ?_⟩
    exact (printed_iff bytes pair.well (nextNs_le x.1) pair.sender.vr pair.room pair.receiver
      pair.running pair.expects pair.accepts delivery).mpr mature

def activated : Process :=
  ({ Iecsock.fresh .master with stopdt := false }, { Program.fresh with user := .pending })

/-- The line `6401000a`. -/
def shortLine : List UInt8 := [54, 52, 48, 49, 48, 48, 48, 97]

theorem shortLine_wellFormed : HexLine.WellFormed shortLine :=
  ⟨by decide, ⟨List.all_eq_true.mp (by decide), rfl⟩, by decide⟩

theorem activated_linked : Linked activated.1 :=
  ⟨rfl, rfl, by decide, by decide, by decide, by decide, by decide⟩

theorem activated_window : WindowOpen activated.1 := by
  intro i bound
  obtain rfl := Nat.le_zero.mp bound
  decide

def shortUnit : Asdu := ⟨[100, 1, 0, 10], by decide⟩

/-- Three units are sent, one of them is acknowledged, five are received; two characters of the
line have been read. -/
def sending : Process :=
  ({ activated.1 with
      va := 1, vs := 3, vr := 5, vaPeer := 4
      ackwQ := [(asduBuf shortUnit).stamp 4 1, (asduBuf shortUnit).stamp 4 2] },
    { activated.2 with rbuf := [54, 52] })

def receiving : Process :=
  ({ activated.1 with
      va := 4, vs := 5, vr := 3, vaPeer := 1
      ackwQ := [(asduBuf shortUnit).stamp 3 4] },
    activated.2)

theorem carried_short :
    Paired shortLine [48, 49, 48, 48, 48, 97] (List.replicate 255 0) sending receiving ∧
      Carried shortLine [48, 49, 48, 48, 48, 97] (List.replicate 255 0) sending receiving := by
  have sender : Linked sending.1 :=
    ⟨rfl, rfl, by decide, by decide, by decide, by decide, by decide⟩
  have receiver : Linked receiving.1 :=
    ⟨rfl, rfl, by decide, by decide, by decide, by decide, by decide⟩
  have opened : WindowOpen sending.1 := by
    intro i bound
    obtain rfl := Nat.le_zero.mp bound
    decide
  have pair : Paired shortLine [48, 49, 48, 48, 48, 97] (List.replicate 255 0) sending receiving :=
    ⟨shortLine_wellFormed, rfl, sender, rfl, opened, receiver, rfl, List.length_replicate, rfl, rfl⟩
  refine ⟨pair, (carried_iff pair).mpr ?_⟩
  rintro ⟨unset, _⟩
  cases unset

/-- A frame on a connection that was made but not activated yet. -/
theorem premature_frame_lost :
    Paired shortLine shortLine (List.replicate 255 0) activated linkStart ∧
      ¬ Carried shortLine shortLine (List.replicate 255 0) activated linkStart := by
  have receiver : Linked linkStart.1 :=
    ⟨rfl, rfl, by decide, by decide, by decide, by decide, by decide⟩
  have pair : Paired shortLine shortLine (List.replicate 255 0) activated linkStart :=
    ⟨shortLine_wellFormed, rfl, activated_linked, rfl, activated_window, receiver, rfl,
      List.length_replicate, rfl, rfl⟩
  refine ⟨pair, fun carried => carried.mature pair ?_⟩
  exact ⟨rfl, rfl, .inl rfl⟩

end EndToEnd

end IecUtils.Link.Transparency
