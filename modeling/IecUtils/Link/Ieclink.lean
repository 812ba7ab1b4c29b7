/- Module: IecUtils/Link/Ieclink
   source: ieclink/ieclink.c
   digest: The ieclink process: standard input, the overflow list, the hooks and reconnection. -/

import IecUtils.Foundation.Transition
import IecUtils.Link.HookRule

set_option autoImplicit false
set_option relaxedAutoImplicit false

namespace IecUtils.Link.Ieclink

open IecUtils.Foundation.Transition
open IecUtils.Link.Frame
open IecUtils.Link.Session
open IecUtils.Link.Handling

/-- A line on standard output, where iecproxy reads it. -/
inductive Line where
  | confirm
  | activated
  | disconnected
  | data (bytes : List UInt8)
  deriving DecidableEq

/-- The event `s->user`: `calloc` leaves it unset, `activation_hook` sets it. -/
inductive UserEvent where
  | unset
  | idle
  | pending
  deriving DecidableEq

/-- What `iec_kick_callback` found on entry and the state at the moment it wrote
its confirmation. -/
structure Confirmation where
  waiting : List Asdu
  session : Iecsock
  asdulist : List Asdu
  carried : List Asdu
  accepted : List Asdu
  sent : List Asdu

/-- The static variables of `ieclink.c` with a trace of the connection. `linked`
says that `asdulistlast` addresses the end of `asdulist`; what is appended when it
does not is lost. `carried`, `accepted` and `sent` are the units in `asdulist` when
the connection began, those read from standard input since, and those passed to
`iec_asdu_send` since. -/
structure Program where
  rbuf : List UInt8
  asdubuf : Asdu
  asdulist : List Asdu
  linked : Bool
  curlistsize : Nat
  endmsg : Bool
  user : UserEvent
  crashed : Bool
  stdout : List Line
  carried : List Asdu
  accepted : List Asdu
  sent : List Asdu
  confirmations : List Confirmation

abbrev Process := Iecsock × Program

def noAsdu : Asdu := ⟨[], by decide⟩

def limlistsize : Nat := 12
def rbufSize : Nat := 1024

def Program.fresh : Program where
  rbuf := []
  asdubuf := noAsdu
  asdulist := []
  linked := true
  curlistsize := 0
  endmsg := false
  user := .unset
  crashed := false
  stdout := []
  carried := []
  accepted := []
  sent := []
  confirmations := []

/-- libevent follows the null base of an event that was never set. -/
def eventAdd (p : Program) : Program :=
  match p.user with
  | .unset => { p with crashed := true }
  | _ => { p with user := .pending }

def iecAsduSend (x : Process) (asdu : Asdu) : Process :=
  (iecsockRunWriteQueue { x.1 with writeQ := x.1.writeQ ++ [asduBuf asdu] },
    { x.2 with sent := x.2.sent ++ [asdu] })

section Stdin

def tolower (c : UInt8) : UInt8 := if 65 ≤ c ∧ c ≤ 90 then c + 32 else c

def hexDigit (b : UInt8) : Option UInt8 :=
  let c := tolower b
  if 48 ≤ c ∧ c ≤ 57 then some (c - 48)
  else if 97 ≤ c ∧ c ≤ 102 then some (10 + c - 97)
  else none

/-- Store one octet while `asdubuf` has room; further octets are dropped. -/
def storeOctet (asdu : Asdu) (v : UInt8) : Asdu :=
  if room : asdu.bytes.length < iec104AsduMax then
    ⟨asdu.bytes ++ [v], by rw [List.length_append]; exact room⟩
  else asdu

/-- Decode digit pairs up to `end`. The flag says whether `cp` got there: a wrong
digit or a single one left over stops short of it. -/
def decodeLine : Asdu → List UInt8 → Asdu × Bool
  | asdu, [] => (asdu, true)
  | asdu, [_] => (asdu, false)
  | asdu, hi :: lo :: rest =>
      match hexDigit hi, hexDigit lo with
      | some a, some b => decodeLine (storeOctet asdu (a * 16 + b)) rest
      | _, _ => (asdu, false)

/-- Append to the overflow list through `asdulistlast`. -/
def listAppend (p : Program) (asdu : Asdu) : Program :=
  { p with
    asdulist := if p.linked then p.asdulist ++ [asdu] else p.asdulist
    curlistsize := p.curlistsize + 1 }

/-- A decoded line: into the window if it has room, else into the list. -/
def acceptAsdu (x : Process) (asdu : Asdu) : Process :=
  let x : Process := (x.1, { x.2 with accepted := x.2.accepted ++ [asdu] })
  if iecsockCanQueue x.1 ≠ 0 then iecAsduSend x asdu else (x.1, listAppend x.2 asdu)

/-- The part of the loop body before the test for an end-of-message mark. -/
def handleLine (x : Process) (line : List UInt8) : Process :=
  let decoded := decodeLine x.2.asdubuf line
  let x : Process := (x.1, { x.2 with asdubuf := decoded.1 })
  if decoded.2 ∧ decoded.1.bytes ≠ [] then acceptAsdu x decoded.1 else x

/-- The loop over complete lines. The result is the bytes not consumed, or nothing
if an end-of-message mark made `stdin_read` return. -/
def lineLoop : Nat → List UInt8 → Process → Option (List UInt8) × Process
  | 0, pbuf, x => (some pbuf, x)
  | fuel + 1, pbuf, x =>
      if 10 ∈ pbuf then
        let line := pbuf.takeWhile (· ≠ 10)
        let rest := (pbuf.dropWhile (· ≠ 10)).drop 1
        let x := handleLine x line
        if pbuf.head? = some 62 then (none, (x.1, { x.2 with rbuf := [], endmsg := true }))
        else lineLoop fuel rest (x.1, { x.2 with asdubuf := noAsdu })
      else (some pbuf, x)

/-- `stdin_read` on the results of its successive reads; a read that gives nothing
ends it, and so do an end-of-message mark and a full list. -/
def stdinRead : List (List UInt8) → Process → Process
  | [], x => x
  | chunk :: chunks, x =>
      let got := chunk.take (rbufSize - x.2.rbuf.length)
      if got = [] then x
      else
        let bytes := x.2.rbuf ++ got
        match lineLoop bytes.length bytes x with
        | (none, x) => x
        | (some left, x) =>
            let x : Process := (x.1, { x.2 with rbuf := if left.length = rbufSize then [] else left })
            if x.2.curlistsize = limlistsize then x else stdinRead chunks x

end Stdin

section Hooks

/-- The loop of `iec_kick_callback` over the overflow list; the result begins with
the node it stopped at. -/
def kickLoop : List Asdu → Process → List Asdu × Process
  | [], x => ([], x)
  | asdu :: rest, x =>
      if iecsockCanQueue x.1 ≠ 0 then kickLoop rest (iecAsduSend x asdu) else (asdu :: rest, x)

def iecKickCallback (x : Process) : Process :=
  let waiting := x.2.asdulist
  let (p, x) := kickLoop waiting x
  -- the node `asdulistlast` points into is freed with the rest of the list
  let linked := if p = [] ∧ waiting ≠ [] then false else x.2.linked
  let x : Process := (x.1, { x.2 with asdulist := p, linked := linked })
  if p = [] ∧ x.2.endmsg = false then (x.1, eventAdd { x.2 with linked := true })
  else if p = [] ∧ x.2.endmsg = true then
    let q := { x.2 with
      stdout := x.2.stdout ++ [.confirm]
      confirmations := x.2.confirmations ++
        [⟨waiting, x.1, x.2.asdulist, x.2.carried, x.2.accepted, x.2.sent⟩] }
    (x.1, { eventAdd q with endmsg := false })
  else x

def disconnectHook (x : Process) : Process := (x.1, { x.2 with stdout := x.2.stdout ++ [.disconnected] })

def dataReceivedHook (b : IecBuf) (x : Process) : Process :=
  (x.1, { x.2 with stdout := x.2.stdout ++ [.data (b.data.take b.dataLen.toNat)] })

def activationHook (x : Process) : Process :=
  (x.1, { eventAdd { x.2 with user := .idle } with stdout := x.2.stdout ++ [.activated] })

/-- `default_hooks` as `main` fills it; a session sets none of its own. -/
def defaultHooks : Iechooks Program where
  activationIndication := some activationHook
  disconnectIndication := some disconnectHook
  dataIndication := some dataReceivedHook
  transmitWakeup := some iecKickCallback

end Hooks

section Rules

variable {x : Process}

/-- What a property of the process has to survive for `stdin_read` to keep it. -/
structure LineInvariant (I : Process → Prop) : Prop where
  buffers : ∀ x rbuf asdubuf endmsg, I x →
    I (x.1, { x.2 with rbuf := rbuf, asdubuf := asdubuf, endmsg := endmsg })
  accept : ∀ x asdu, I x → I (acceptAsdu x asdu)

private theorem lineLoop_keeps {I : Process → Prop} (rule : LineInvariant I) (fuel : Nat)
    (pbuf : List UInt8) (h : I x) : I (lineLoop fuel pbuf x).2 := by
  induction fuel generalizing pbuf x with
  | zero => exact h
  | succ fuel ih =>
    unfold lineLoop
    split
    · have handled : I (handleLine x (pbuf.takeWhile (· ≠ 10))) := by
        have decoded := rule.buffers x x.2.rbuf
          (decodeLine x.2.asdubuf (pbuf.takeWhile (· ≠ 10))).1 x.2.endmsg h
        unfold handleLine
        simp only
        split
        · exact rule.accept _ _ decoded
        · exact decoded
      simp only
      split
      · exact rule.buffers _ [] _ true handled
      · exact ih _ (rule.buffers _ _ noAsdu _ handled)
    · exact h

theorem stdinRead_keeps {I : Process → Prop} (rule : LineInvariant I)
    (chunks : List (List UInt8)) (h : I x) : I (stdinRead chunks x) := by
  induction chunks generalizing x with
  | nil => exact h
  | cons chunk chunks ih =>
    unfold stdinRead
    simp only
    split
    · exact h
    · have looped := lineLoop_keeps rule
        (x.2.rbuf ++ chunk.take (rbufSize - x.2.rbuf.length)).length
        (x.2.rbuf ++ chunk.take (rbufSize - x.2.rbuf.length)) h
      generalize lineLoop _ _ x = result at looped ⊢
      obtain ⟨left, y⟩ := result
      cases left with
      | none => exact looped
      | some left =>
        simp only
        have stored := rule.buffers y (if left.length = rbufSize then [] else left) y.2.asdubuf
          y.2.endmsg looped
        split
        · exact stored
        · exact ih stored

theorem eventAdd_eq (p : Program) :
    ∃ user crashed, eventAdd p = { p with user := user, crashed := crashed } := by
  unfold eventAdd
  split
  · exact ⟨p.user, true, rfl⟩
  · exact ⟨.pending, p.crashed, rfl⟩

theorem iecAsduSend_sends (x : Process) (asdu : Asdu) : Sends x.1 (iecAsduSend x asdu).1 :=
  .head (.enqueue x.1 asdu) (runWriteQueue_sends _)

theorem kickLoop_sends (list : List Asdu) (x : Process) :
    Sends x.1 (kickLoop list x).2.1 ∧ (kickLoop list x).2.2.stdout = x.2.stdout ∧
      (kickLoop list x).2.2.user = x.2.user := by
  induction list generalizing x with
  | nil => exact ⟨.refl, rfl, rfl⟩
  | cons asdu list ih =>
    unfold kickLoop
    split
    · obtain ⟨sent, stdout, user⟩ := ih (iecAsduSend x asdu)
      exact ⟨(iecAsduSend_sends x asdu).trans sent, stdout, user⟩
    · exact ⟨.refl, rfl, rfl⟩

theorem iecKickCallback_session (x : Process) :
    (iecKickCallback x).1 = (kickLoop x.2.asdulist x).2.1 := by
  unfold iecKickCallback
  simp only
  split_ifs <;> rfl

end Rules

/-- What happens to the process: standard input becomes readable, a frame is
complete, a header is not one, a timer fires, the socket fails, the next connection
is made. -/
inductive LinkEvent where
  | stdin (chunks : List (List UInt8))
  | recv (f : Apdu)
  | badHeader
  | t1
  | t2
  | t3
  | error
  | connect

/-- `iecsock_close` also removes the event on standard input. -/
def closeLink (x : Process) : Process := (iecsockClose x.1, { x.2 with user := .idle })

/-- The new session of `iecsock_connect`, from the end of `connect_writecb` on. -/
def connectLink (p : Program) : Process :=
  (connectWritecb (Iecsock.fresh .master),
    { p with
      user := .unset
      carried := p.asdulist
      accepted := []
      sent := [] })

def connectionLost (x : Process) : Process := closeLink (indicate defaultHooks.disconnectIndication x)

def openStep (x : Process) : LinkEvent → Option Process
  | .stdin chunks =>
      if x.2.user = .pending then some (stdinRead chunks (x.1, { x.2 with user := .idle })) else none
  | .recv f =>
      let r := iecsockFrameRecv defaultHooks x f
      some (if r.1 = 0 then r.2 else closeLink r.2)
  -- the reader goes on with the session it has just released; here the connection ends
  | .badHeader => some (closeLink x)
  | .t1 => if x.1.t1Timer then some (connectionLost ({ x.1 with t1Timer := false }, x.2)) else none
  | .t2 => if x.1.t2Timer then some (t2TimerRun { x.1 with t2Timer := false }, x.2) else none
  | .t3 => if x.1.t3Timer then some (t3TimerRun { x.1 with t3Timer := false }, x.2) else none
  | .error => some (connectionLost x)
  | .connect => none

def linkStep (x : Process) (e : LinkEvent) : Option Process :=
  if x.2.crashed then none
  else if x.1.closed then
    match e with
    | .connect => some (connectLink x.2)
    | _ => none
  else openStep x e

def linkStart : Process := connectLink Program.fresh

/-- Everything one event can do to the process. -/
inductive LinkOutcome (x : Process) : LinkEvent → Process → Prop where
  | connect : x.1.closed = true → LinkOutcome x .connect (connectLink x.2)
  | stdin {chunks : List (List UInt8)} : x.1.closed = false → x.2.user = .pending →
      LinkOutcome x (.stdin chunks) (stdinRead chunks (x.1, { x.2 with user := .idle }))
  | accepted {f : Apdu} {y : Process} : x.1.closed = false → Handled defaultHooks x f 0 y →
      LinkOutcome x (.recv f) y
  | rejected {f : Apdu} {r : Int} {y : Process} : x.1.closed = false → r ≠ 0 →
      Handled defaultHooks x f r y → LinkOutcome x (.recv f) (closeLink y)
  | badHeader : x.1.closed = false → LinkOutcome x .badHeader (closeLink x)
  | t1 : x.1.closed = false →
      LinkOutcome x .t1 (connectionLost ({ x.1 with t1Timer := false }, x.2))
  | t2 : x.1.closed = false →
      LinkOutcome x .t2 (t2TimerRun { x.1 with t2Timer := false }, x.2)
  | t3 : x.1.closed = false →
      LinkOutcome x .t3 (t3TimerRun { x.1 with t3Timer := false }, x.2)
  | error : x.1.closed = false → LinkOutcome x .error (connectionLost x)

private theorem openStep_outcome {x y : Process} {e : LinkEvent} (opened : x.1.closed = false)
    (h : openStep x e = some y) : LinkOutcome x e y := by
  cases e with
  | stdin chunks =>
    simp only [openStep] at h
    split at h
    · rename_i waiting
      obtain rfl := Option.some.inj h
      exact .stdin opened waiting
    · cases h
  | recv f =>
    have handled := frameRecv_handled defaultHooks x f
    simp only [openStep] at h
    obtain rfl := Option.some.inj h
    split
    · rename_i ok
      rw [ok] at handled
      exact .accepted opened handled
    · rename_i bad
      exact .rejected opened bad handled
  | badHeader =>
    obtain rfl := Option.some.inj h
    exact .badHeader opened
  | t1 =>
    simp only [openStep] at h
    split at h
    · obtain rfl := Option.some.inj h
      exact .t1 opened
    · cases h
  | t2 =>
    simp only [openStep] at h
    split at h
    · obtain rfl := Option.some.inj h
      exact .t2 opened
    · cases h
  | t3 =>
    simp only [openStep] at h
    split at h
    · obtain rfl := Option.some.inj h
      exact .t3 opened
    · cases h
  | error =>
    obtain rfl := Option.some.inj h
    exact .error opened
  | connect => cases h

theorem linkStep_outcome {x y : Process} {e : LinkEvent} (h : linkStep x e = some y) :
    LinkOutcome x e y := by
  unfold linkStep at h
  split at h
  · cases h
  · split at h
    · rename_i closed
      cases e with
      | connect =>
        obtain rfl := Option.some.inj h
        exact .connect closed
      | _ => cases h
    · rename_i opened
      exact openStep_outcome ((Bool.not_eq_true _).mp opened) h

end IecUtils.Link.Ieclink
