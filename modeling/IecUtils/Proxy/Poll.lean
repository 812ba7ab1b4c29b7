/- Module: IecUtils/Proxy/Poll
   source: iecproxy/iecproxy.c, with the clients of sockwrite/sockwrite.c
   digest: The poll loop of iecproxy between ieclink, the listening socket and one client. -/

import IecUtils.Foundation.Transition

set_option autoImplicit false
set_option relaxedAutoImplicit false

namespace IecUtils.Proxy.Poll

open IecUtils.Foundation.Transition

def octets (text : List Char) : List UInt8 := text.map fun c => UInt8.ofNat c.toNat

/-- The text `END_INIT`; only its first eight characters are compared. -/
def endInit : List UInt8 :=
  octets ['4', '6', '0', '1', '0', '4', '0', '0', '0', '0', '0', '0', '0', '0', '0', '0', '0', '0',
    '0', '0']

/-- The text `GI_ACT`. -/
def giAct : List UInt8 :=
  octets ['6', '4', '0', '1', '0', '6', '0', '0', 'F', 'F', 'F', 'F', '0', '0', '0', '0', '0', '0',
    '1', '4']

/-- `strncmp(a, b, n) == 0` on texts that end where the list ends. -/
def strncmpEq : Nat → List UInt8 → List UInt8 → Bool
  | 0, _, _ => true
  | _ + 1, [], [] => true
  | n + 1, a :: as, b :: bs => a == b && strncmpEq n as bs
  | _ + 1, _, _ => false

/-- What the chain of comparisons makes of a line of ieclink. -/
inductive LinkLine where
  | endInit
  | giAct
  | plus
  | minus
  | confirm
  | other
  deriving DecidableEq

/-- `buf` with its newline, as `readline` leaves it; its result is the length. -/
def classify (buf : List UInt8) : LinkLine :=
  if strncmpEq 8 endInit buf then .endInit
  else if strncmpEq (buf.length - 1) giAct buf then .giAct
  else if buf.head? = some 43 then .plus
  else if buf.head? = some 45 then .minus
  else if buf.head? = some 60 then .confirm
  else .other

/-- How the data of a client ends: it half-closes, or the connection is reset. -/
inductive Ending where
  | eof
  | reset
  deriving DecidableEq

/-- A connection of sockwrite and what successive reads on it will return. -/
structure Client where
  id : Nat
  chunks : List (List UInt8)
  ending : Ending
  deriving DecidableEq

/-- The ">" that ends a message: the connection open when it was written, and what
had been forwarded from that connection before. -/
structure Mark where
  conn : Option Nat
  forwarded : List (List UInt8)
  deriving DecidableEq

/-- What iecproxy writes to the standard input of ieclink. -/
inductive Sent where
  | giCon
  | giAsdu (line : List UInt8)
  | giEnd
  | data (chunk : List UInt8)
  | mark
  deriving DecidableEq

/-- A '<' written to a client and the mark that it answers. -/
structure Answer where
  client : Client
  mark : Mark
  deriving DecidableEq

/-- The variables of `main` with a trace. `fd1` and `newSockfd` say whether a
listening socket is there; `answered` counts the marks that can have no answer any
more, since ieclink answers in order. -/
structure ProxyState where
  newConnect : Bool
  newSockfd : Bool
  fd1 : Bool
  fd2 : Option Client
  pollin2 : Bool
  toLink : List Sent
  hookConnects : Nat
  hookDisconnects : Nat
  accepted : Nat
  marks : List Mark
  answered : Nat
  answers : List Answer

def ProxyState.fresh : ProxyState where
  newConnect := false
  newSockfd := false
  fd1 := false
  fd2 := none
  pollin2 := false
  toLink := []
  hookConnects := 0
  hookDisconnects := 0
  accepted := 0
  marks := []
  answered := 0
  answers := []

/-- What one call of `poll` finds ready: a line of ieclink, with the mark it answers
if it is a confirmation, a client on the listening socket, data or a hang-up on the
connection. `gi` is what the interrogation script prints if it is run. -/
structure Ready where
  line : Option (List UInt8 × Nat) := none
  incoming : Option (List (List UInt8) × Ending) := none
  readable : Bool := false
  hangup : Bool := false
  gi : List (List UInt8) := []

def Ready.nready (w : Ready) : Int :=
  (if w.line.isSome then 1 else 0) + (if w.incoming.isSome then 1 else 0) +
    (if w.readable ∨ w.hangup then 1 else 0)

section Body

def ginterrog (p : ProxyState) (lines : List (List UInt8)) : ProxyState :=
  { p with toLink := p.toLink ++ lines.map Sent.giAsdu }

def write (p : ProxyState) (s : Sent) : ProxyState := { p with toLink := p.toLink ++ [s] }

/-- Write the ">" after `forwarded` has gone out. -/
def writeMark (p : ProxyState) (forwarded : List (List UInt8)) : ProxyState :=
  { p with
    toLink := p.toLink ++ [.mark]
    marks := p.marks ++ [⟨p.fd2.map Client.id, forwarded⟩] }

def giActLine (p : ProxyState) (gi : List (List UInt8)) : ProxyState :=
  if p.newConnect then
    write { p with
      fd1 := p.newSockfd
      hookConnects := p.hookConnects + 1
      newConnect := false } .giCon
  else
    writeMark (write (ginterrog (write p .giCon) gi) .giEnd) []

def minusLine (p : ProxyState) : ProxyState :=
  { p with fd1 := false, fd2 := none, hookDisconnects := p.hookDisconnects + 1 }

def confirmLine (p : ProxyState) (mark : Nat) : ProxyState :=
  let p := { p with answered := mark + 1 }
  match p.fd2 with
  | none => p
  | some c =>
      { p with
        fd2 := none
        answers := p.answers ++ [⟨c, p.marks.getD mark ⟨none, []⟩⟩] }

/-- The branches for a line other than `END_INIT`. -/
def linkLine (p : ProxyState) (line : LinkLine) (mark : Nat) (gi : List (List UInt8)) : ProxyState :=
  match line with
  | .giAct => giActLine p gi
  | .plus => { p with newSockfd := true, newConnect := true }
  | .minus => minusLine p
  | .confirm => confirmLine p mark
  | .endInit => p
  | .other => p

/-- `accept` fails on a listening socket that was closed since `poll` returned. -/
def acceptClient (p : ProxyState) (chunks : List (List UInt8)) (ending : Ending) : ProxyState :=
  { p with
    fd2 := if p.fd1 then some ⟨p.accepted, chunks, ending⟩ else none
    pollin2 := true
    accepted := p.accepted + 1 }

/-- The read loop on the connection. A chunk that begins with '^' closes it, and
the next read fails; otherwise the loop ends as the client ends. The result is what
was forwarded. -/
def readLoop (gi : List (List UInt8)) (ending : Ending) :
    List (List UInt8) → List (List UInt8) → ProxyState → List (List UInt8) × ProxyState
  | [], done, p =>
      match ending with
      | .eof => (done, p)
      | .reset => (done, { p with fd2 := none })
  | chunk :: chunks, done, p =>
      if chunk.head? = some 94 then
        (done, write (ginterrog { p with fd2 := none } gi) .giEnd)
      else readLoop gi ending chunks (done ++ [chunk]) (write p (.data chunk))

/-- The branch for a readable connection; on a descriptor closed since `poll`
returned the first read fails, and the ">" is written all the same. -/
def clientData (p : ProxyState) (gi : List (List UInt8)) : ProxyState :=
  let (forwarded, p) :=
    match p.fd2 with
    | none => ([], p)
    | some c => readLoop gi c.ending c.chunks [] p
  { writeMark p forwarded with pollin2 := false }

def fd2Stage (p : ProxyState) (w : Ready) : ProxyState := if w.readable then clientData p w.gi else p

def fd1Stage (p : ProxyState) (w : Ready) (nready : Int) : ProxyState :=
  match w.incoming with
  | none => fd2Stage p w
  | some (chunks, ending) =>
      let p := acceptClient p chunks ending
      if nready - 1 ≤ 0 then p else fd2Stage p w

def fd0Stage (p : ProxyState) (w : Ready) : ProxyState :=
  match w.line with
  | none => p
  | some (buf, mark) => linkLine p (classify buf) mark w.gi

/-- The body of the loop, from the return of `poll` on. -/
def pollBody (p : ProxyState) (w : Ready) : ProxyState :=
  match w.line with
  | none => fd1Stage p w w.nready
  | some (buf, _) =>
      if classify buf = .endInit then p
      else if w.nready - 1 ≤ 0 then fd0Stage p w
      else fd1Stage (fd0Stage p w) w (w.nready - 1)

end Body

/-- What can become ready. Clients come one after another, each waiting for its
answer; ieclink answers a mark at most once and in order. -/
def Possible (p : ProxyState) (w : Ready) : Prop :=
  (∀ l ∈ w.line, classify l.1 = .confirm → p.answered ≤ l.2 ∧ l.2 < p.marks.length) ∧
  (w.incoming.isSome → p.fd1 = true ∧ p.fd2 = none) ∧
  (w.readable → p.fd2.isSome ∧ p.pollin2 = true) ∧
  (w.hangup → p.fd2.isSome)

instance (p : ProxyState) (w : Ready) : Decidable (Possible p w) :=
  inferInstanceAs (Decidable (_ ∧ _))

def proxyStep (p : ProxyState) (w : Ready) : Option ProxyState :=
  if Possible p w then some (pollBody p w) else none

end IecUtils.Proxy.Poll
