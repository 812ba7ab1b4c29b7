/- Module: IecUtils/Link/Lifecycle
   source: iecsock_connect, connect_writecb, t0_timer_run, t1_timer_run, listen_readcb, buferrorcb, bufreadcb and iecsock_close of ieclink/iecsock.c
   digest: The sessions from one connection to the next: what they hold and give back, and which links survive. -/

import IecUtils.Foundation.Handout
import IecUtils.Foundation.Transition
import IecUtils.Link.Session
import Mathlib.Data.List.Nodup

set_option autoImplicit false
set_option relaxedAutoImplicit false

namespace IecUtils.Link.Lifecycle

open IecUtils.Foundation.Handout
open IecUtils.Foundation.Transition
open IecUtils.Link.Session (IecType)

section Program

/-- What libevent watches for a session: the event `t0_timer` on the socket and as a timer, the
other timers, the event `user`, and the input of the `bufferevent`. -/
inductive Watch where
  | connectable
  | t0
  | t1
  | t2
  | t3
  | user
  | readable
  deriving DecidableEq

/-- How far a session is: its socket connects, it waits behind a failure with its socket closed,
or it has a `bufferevent`. -/
inductive Phase where
  | connecting (sock : Nat)
  | waiting
  | up (sock io : Nat)
  deriving DecidableEq

/-- `struct iecsock` at the address `ident`. `link` is the number of the call of
`iecsock_connect` by the program, or of the accepted connection, that it goes back to. -/
structure Iecsock (α : Type) where
  ident : Nat
  type : IecType
  addr : α
  phase : Phase
  link : Nat
  deriving DecidableEq

/-- The process: the blocks, sockets and `bufferevent`s in use and their pools, what libevent
watches, the address of each link, and whether freed memory was used. -/
structure Base (α : Type) where
  sessions : List (Iecsock α)
  memory : Pool
  sockets : Pool
  bufferevents : Pool
  events : List (Nat × Watch)
  links : List α
  undefined : Bool
  deriving DecidableEq

variable {α : Type}

def Base.init : Base α := ⟨[], .empty, .empty, .empty, [], [], false⟩

/-- What the calls in `iecsock_connect` return: `connected` is `ret != -1`, and `inProgress` is
`errno == EINPROGRESS` behind it. -/
structure ConnectCalls where
  calloc : Bool
  socket : Bool
  fcntl : Bool
  connected : Bool
  inProgress : Bool
  deriving DecidableEq

def ConnectCalls.fails (w : ConnectCalls) : Bool :=
  !w.calloc || !w.socket || !w.fcntl || (w.connected && !w.inProgress)

/-- What the calls in `listen_readcb` return. -/
structure AcceptCalls where
  calloc : Bool
  accept : Bool
  setsockopt : Bool
  bufferevent : Bool
  deriving DecidableEq

def Base.add (b : Base α) (i : Nat) (w : Watch) : Base α := { b with events := (i, w) :: b.events }

def Base.del (b : Base α) (i : Nat) (ws : List Watch) : Base α :=
  { b with events := b.events.filter fun e => ¬ (e.1 = i ∧ e.2 ∈ ws) }

def besides (i : Nat) (ss : List (Iecsock α)) : List (Iecsock α) := ss.filter fun s => s.ident ≠ i

def Base.others (b : Base α) (i : Nat) : List (Iecsock α) := besides i b.sessions

def Base.free (b : Base α) (i : Nat) : Base α :=
  { b with sessions := b.others i, memory := b.memory.give i }

def Base.setPhase (b : Base α) (s : Iecsock α) (phase : Phase) : Base α :=
  { b with sessions := { s with phase := phase } :: b.others s.ident }

def Base.close (b : Base α) (sock : Nat) : Base α := { b with sockets := b.sockets.give sock }

def iecsockConnect (w : ConnectCalls) (addr : α) (link : Nat) (b : Base α) : Bool × Base α :=
  if !w.calloc then (false, b)
  else
    let i := b.memory.handed
    let b := { b with memory := b.memory.take }
    if !w.socket then (false, b.free i)
    else
      let sock := b.sockets.handed
      let b := { b with sockets := b.sockets.take }
      if !w.fcntl then (false, (b.close sock).free i)
      else if w.connected && !w.inProgress then (false, (b.close sock).free i)
      else
        (true,
          { b with sessions := ⟨i, .master, addr, .connecting sock, link⟩ :: b.sessions }.add i
            .connectable)

/-- The end that `connect_writecb` and `listen_readcb` share, from `bufferevent_setwatermark` on. -/
def start (i : Nat) (b : Base α) : Base α := (b.add i .readable).add i .t1

/-- `connect_writecb`, when the socket can be written; `opt` says whether SO_ERROR is not 0. -/
def connectWritecb (opt bufferevent : Bool) (s : Iecsock α) (sock : Nat) (b : Base α) : Base α :=
  if opt then ((b.close sock).setPhase s .waiting).add s.ident .t0
  else
    let b := b.del s.ident [.t0]
    if !bufferevent then
      -- the statements behind the block use the session
      { (b.close sock).free s.ident with undefined := true }
    else
      let io := b.bufferevents.handed
      start s.ident
        ({ b with bufferevents := b.bufferevents.take }.setPhase s (.up sock io))

def t0TimerRun (w : ConnectCalls) (s : Iecsock α) (b : Base α) : Base α :=
  (iecsockConnect w s.addr s.link b).2.free s.ident

def listenReadcb (w : AcceptCalls) (addr : α) (b : Base α) : Base α :=
  if !w.calloc then b
  else
    let i := b.memory.handed
    let b := { b with memory := b.memory.take }
    if !w.accept then b.free i
    else
      let sock := b.sockets.handed
      let b := { b with sockets := b.sockets.take }
      if !w.setsockopt then (b.close sock).free i
      else if !w.bufferevent then (b.close sock).free i
      else
        let io := b.bufferevents.handed
        start i
          { b with
            bufferevents := b.bufferevents.take
            sessions := ⟨i, .master, addr, .up sock io, b.links.length⟩ :: b.sessions
            links := b.links ++ [addr] }

/-- `iecsock_close`; its queues are not modelled here. -/
def iecsockClose (w : ConnectCalls) (s : Iecsock α) (sock io : Nat) (b : Base α) : Base α :=
  let b := b.del s.ident [.t0, .t1, .t2, .t3, .user]
  -- `bufferevent_free` removes its own events
  let b := { b.del s.ident [.readable] with bufferevents := b.bufferevents.give io }
  let b := b.close sock
  let b := if s.type = .master then (iecsockConnect w s.addr s.link b).2 else b
  b.free s.ident

/-- What happens: the program calls `iecsock_connect`, a connection comes in, a socket connects
or times out, a timer fires, the handlers start and stop timers, the connection fails, or a frame
is rejected. -/
inductive Event (α : Type) where
  | connect (addr : α) (w : ConnectCalls)
  | accept (addr : α) (w : AcceptCalls)
  | timeout (i : Nat)
  | writable (i : Nat) (opt bufferevent : Bool)
  | t0 (i : Nat) (w : ConnectCalls)
  | t1 (i : Nat) (w : ConnectCalls)
  | timer (i : Nat) (t : Watch) (on : Bool)
  | error (i : Nat) (w : ConnectCalls)
  | rejected (i : Nat) (w : ConnectCalls)
  deriving DecidableEq

/-- The timers and events that the handlers of a connection use. -/
def Watch.handled : Watch → Bool
  | .t1 | .t2 | .t3 | .user => true
  | .connectable | .t0 | .readable => false

/-- A callback for a session; if it was freed, the callback uses freed memory. -/
def callback (b : Base α) (i : Nat) (w : Watch) (f : Iecsock α → Base α) : Option (Base α) :=
  if (i, w) ∈ b.events then
    match b.sessions.find? fun s => s.ident = i with
    | none => some { b with undefined := true }
    | some s => some (f s)
  else none

/-- The fields `sock` and `io`; without them the calls fail. -/
def withSocket (b : Base α) (s : Iecsock α) (f : Nat → Base α) : Base α :=
  match s.phase with
  | .connecting sock => f sock
  | .up sock _ => f sock
  | .waiting => { b with undefined := true }

def withIo (b : Base α) (s : Iecsock α) (f : Nat → Nat → Base α) : Base α :=
  match s.phase with
  | .up sock io => f sock io
  | .connecting _ | .waiting => { b with undefined := true }

def step (b : Base α) (e : Event α) : Option (Base α) :=
  if b.undefined then none
  else
    match e with
    | .connect addr w =>
        let r := iecsockConnect w addr b.links.length b
        some (if r.1 then { r.2 with links := r.2.links ++ [addr] } else r.2)
    | .accept addr w => some (listenReadcb w addr b)
    | .timeout i => callback b i .connectable fun _ => (b.del i [.connectable]).add i .connectable
    | .writable i opt bufferevent =>
        callback b i .connectable fun s => withSocket b s fun sock =>
          connectWritecb opt bufferevent s sock (b.del i [.connectable])
    | .t0 i w => callback b i .t0 fun s => t0TimerRun w s (b.del i [.t0])
    | .t1 i w =>
        callback b i .t1 fun s => withIo b s fun sock io =>
          iecsockClose w s sock io (b.del i [.t1])
    | .timer i t on =>
        if t.handled then
          callback b i .readable fun _ => if on then b.add i t else b.del i [t]
        else none
    | .error i w =>
        callback b i .readable fun s => withIo b s fun sock io => iecsockClose w s sock io b
    | .rejected i w =>
        callback b i .readable fun s => withIo b s fun sock io =>
          -- `bufreadcb` and `iecsock_buffer_read` go on with the session
          { iecsockClose w s sock io b with undefined := true }

end Program

section Purpose

variable {α : Type}

def Phase.sock : Phase → Option Nat
  | .connecting sock => some sock
  | .waiting => none
  | .up sock _ => some sock

def Phase.io : Phase → Option Nat
  | .up _ io => some io
  | .connecting _ | .waiting => none

def Phase.driver : Phase → Watch
  | .connecting _ => .connectable
  | .waiting => .t0
  | .up _ _ => .readable

def Phase.allows (p : Phase) (w : Watch) : Prop :=
  w = p.driver ∨ p.io.isSome = true ∧ w.handled = true

/-- The block, the socket and the `bufferevent` of every session are its own, and every other one
that was ever obtained was given back once; nothing is watched for a block that was freed, and
every session is watched for what takes it further. -/
structure Sound (b : Base α) : Prop where
  memory : Accounted (b.sessions.map Iecsock.ident) b.memory
  sockets : Accounted (b.sessions.filterMap fun s => s.phase.sock) b.sockets
  bufferevents : Accounted (b.sessions.filterMap fun s => s.phase.io) b.bufferevents
  watched : ∀ e ∈ b.events, ∃ s ∈ b.sessions, s.ident = e.1 ∧ s.phase.allows e.2
  driven : ∀ s ∈ b.sessions, (s.ident, s.phase.driver) ∈ b.events
  master : ∀ s ∈ b.sessions, s.type = .master

/-- The events behind which freed memory is used: a rejected frame, and a connection for which
there is no `bufferevent`. -/
def touches : Event α → Bool
  | .rejected _ _ => true
  | .writable _ opt bufferevent => !opt && !bufferevent
  | _ => false

/-- The link of a session, if what is to go on with it fails. -/
def givenUp (b : Base α) (i : Nat) (fails : Bool) : List Nat :=
  if fails then ((b.sessions.find? fun s => s.ident = i).map Iecsock.link).toList else []

/-- The link of a session that is given up without another one in its place. -/
def failing (b : Base α) : Event α → List Nat
  | .t0 i w => givenUp b i w.fails
  | .t1 i w => givenUp b i w.fails
  | .error i w => givenUp b i w.fails
  | .rejected i w => givenUp b i w.fails
  | .writable i opt bufferevent => givenUp b i (!opt && !bufferevent)
  | _ => []

end Purpose

section Sessions

variable {α : Type} {ss : List (Iecsock α)} {s : Iecsock α}

theorem mem_besides {i : Nat} : s ∈ besides i ss ↔ s ∈ ss ∧ s.ident ≠ i := by
  simp [besides]

theorem besides_fresh {i : Nat} (fresh : i ∉ ss.map Iecsock.ident) : besides i ss = ss := by
  refine List.filter_eq_self.mpr fun s member => ?_
  have other : s.ident ≠ i := fun same => fresh (same ▸ List.mem_map_of_mem member)
  exact decide_eq_true other

theorem perm_besides (distinct : (ss.map Iecsock.ident).Nodup) (member : s ∈ ss) :
    ss.Perm (s :: besides s.ident ss) := by
  induction ss with
  | nil => cases member
  | cons t ss ih =>
    rw [List.map_cons, List.nodup_cons] at distinct
    obtain ⟨fresh, later⟩ := distinct
    rcases List.mem_cons.mp member with rfl | member
    · have alone : besides s.ident (s :: ss) = besides s.ident ss :=
        List.filter_cons_of_neg (by simp)
      rw [alone, besides_fresh fresh]
    · have other : t.ident ≠ s.ident := fun same => fresh (same ▸ List.mem_map_of_mem member)
      have kept : besides s.ident (t :: ss) = t :: besides s.ident ss :=
        List.filter_cons_of_pos (decide_eq_true other)
      rw [kept]
      exact ((ih later member).cons t).trans (List.Perm.swap _ _ _)

theorem find_session (distinct : (ss.map Iecsock.ident).Nodup) (member : s ∈ ss) :
    (ss.find? fun t => t.ident = s.ident) = some s := by
  obtain ⟨t, found⟩ := Option.isSome_iff_exists.mp
    (List.find?_isSome.mpr ⟨s, member, decide_eq_true rfl⟩ :
      (ss.find? fun t => t.ident = s.ident).isSome = true)
  have same : t.ident = s.ident := by simpa using List.find?_some found
  rw [found, List.inj_on_of_nodup_map distinct (List.mem_of_find?_eq_some found) member same]

end Sessions

section Watching

variable {α : Type} {ss : List (Iecsock α)} {es fs : List (Nat × Watch)} {s : Iecsock α}

/-- The last three lines of `Sound`, for any sessions and events. -/
structure Watching (ss : List (Iecsock α)) (es : List (Nat × Watch)) : Prop where
  watched : ∀ e ∈ es, ∃ s ∈ ss, s.ident = e.1 ∧ s.phase.allows e.2
  driven : ∀ s ∈ ss, (s.ident, s.phase.driver) ∈ es

theorem Watching.congr (h : Watching ss es) (same : ∀ e, e ∈ fs ↔ e ∈ es) : Watching ss fs where
  watched e member := h.watched e ((same e).mp member)
  driven s member := (same _).mpr (h.driven s member)

theorem Watching.cons (h : Watching ss es) (s : Iecsock α) :
    Watching (s :: ss) ((s.ident, s.phase.driver) :: es) where
  watched e member := by
    rcases List.mem_cons.mp member with rfl | member
    · exact ⟨s, List.mem_cons_self, rfl, .inl rfl⟩
    · obtain ⟨t, inside, here⟩ := h.watched e member
      exact ⟨t, List.mem_cons_of_mem _ inside, here⟩
  driven t member := by
    rcases List.mem_cons.mp member with rfl | member
    · exact List.mem_cons_self
    · exact List.mem_cons_of_mem _ (h.driven t member)

theorem Watching.add (h : Watching ss es) (member : s ∈ ss) {w : Watch}
    (allowed : s.phase.allows w) : Watching ss ((s.ident, w) :: es) where
  watched e inside := by
    rcases List.mem_cons.mp inside with rfl | inside
    · exact ⟨s, member, rfl, allowed⟩
    · exact h.watched e inside
  driven t inside := List.mem_cons_of_mem _ (h.driven t inside)

theorem Watching.drop (h : Watching ss es) (i : Nat) :
    Watching (besides i ss) (es.filter fun e => e.1 ≠ i) where
  watched e member := by
    obtain ⟨inside, other⟩ := List.mem_filter.mp member
    obtain ⟨t, here, same, allowed⟩ := h.watched e inside
    exact ⟨t, mem_besides.mpr ⟨here, same ▸ of_decide_eq_true other⟩, same, allowed⟩
  driven t member := by
    obtain ⟨inside, other⟩ := mem_besides.mp member
    exact List.mem_filter.mpr ⟨h.driven t inside, decide_eq_true other⟩

theorem Watching.allowed (h : Watching ss es) (distinct : (ss.map Iecsock.ident).Nodup)
    (member : s ∈ ss) {w : Watch} (event : (s.ident, w) ∈ es) : s.phase.allows w := by
  obtain ⟨t, inside, same, allowed⟩ := h.watched _ event
  rwa [List.inj_on_of_nodup_map distinct inside member same] at allowed

theorem Watching.deleted (h : Watching ss es) (distinct : (ss.map Iecsock.ident).Nodup)
    (member : s ∈ ss) {ws : List Watch} (all : ∀ w, s.phase.allows w → w ∈ ws)
    (e : Nat × Watch) :
    e ∈ es.filter (fun e => ¬ (e.1 = s.ident ∧ e.2 ∈ ws)) ↔
      e ∈ es.filter fun e => e.1 ≠ s.ident := by
  rw [List.mem_filter, List.mem_filter, decide_eq_true_eq, decide_eq_true_eq]
  refine and_congr_right fun inside => ?_
  constructor
  · intro kept same
    refine kept ⟨same, all _ (h.allowed distinct member (w := e.2) ?_)⟩
    rw [← same]
    exact inside
  · exact fun other same => other same.1

end Watching

section Owning

variable {α : Type} {b : Base α} {idents : List Nat} {ss : List (Iecsock α)} {s : Iecsock α}

/-- `Sound`, when blocks are in use besides those of the sessions in question, or some of what
sessions held was given back already. -/
structure Owns (b : Base α) (idents : List Nat) (ss : List (Iecsock α)) : Prop where
  memory : Accounted idents b.memory
  sockets : Accounted (ss.filterMap fun s => s.phase.sock) b.sockets
  bufferevents : Accounted (ss.filterMap fun s => s.phase.io) b.bufferevents
  watching : Watching ss b.events
  master : ∀ s ∈ ss, s.type = .master

theorem Sound.owns (h : Sound b) : Owns b (b.sessions.map Iecsock.ident) b.sessions :=
  ⟨h.memory, h.sockets, h.bufferevents, ⟨h.watched, h.driven⟩, h.master⟩

theorem Owns.sound (h : Owns b (b.sessions.map Iecsock.ident) b.sessions) : Sound b :=
  ⟨h.memory, h.sockets, h.bufferevents, h.watching.watched, h.watching.driven, h.master⟩

theorem Sound.distinct (h : Sound b) : (b.sessions.map Iecsock.ident).Nodup := h.memory.nodup

/-- What `iecsock_connect` makes of the process. -/
inductive Connected (w : ConnectCalls) (addr : α) (link : Nat) (b : Base α) :
    Bool × Base α → Prop where
  | failed (memory sockets : Pool) : w.fails = true →
      (∀ held, Accounted held b.memory → Accounted held memory) →
      (∀ held, Accounted held b.sockets → Accounted held sockets) →
      Connected w addr link b (false, { b with memory := memory, sockets := sockets })
  | opened : w.fails = false →
      Connected w addr link b (true,
        { b with
          sessions := ⟨b.memory.handed, .master, addr, .connecting b.sockets.handed, link⟩ ::
            b.sessions
          memory := b.memory.take
          sockets := b.sockets.take
          events := (b.memory.handed, .connectable) :: b.events })

theorem iecsockConnect_connected (w : ConnectCalls) (addr : α) (link : Nat)
    (fresh : b.memory.handed ∉ b.sessions.map Iecsock.ident) :
    Connected w addr link b (iecsockConnect w addr link b) := by
  have kept : besides b.memory.handed b.sessions = b.sessions := besides_fresh fresh
  have back {p : Pool} : ∀ held, Accounted held p → Accounted held (p.take.give p.handed) :=
    fun held accounted => accounted.take.give
  have same {p : Pool} : ∀ held, Accounted held p → Accounted held p :=
    fun held accounted => accounted
  unfold iecsockConnect
  cases calloc : w.calloc with
  | false => exact .failed b.memory b.sockets (by simp [ConnectCalls.fails, calloc]) same same
  | true =>
    cases socket : w.socket with
    | false =>
      have result : Connected w addr link b (false, _) :=
        .failed (b.memory.take.give b.memory.handed) b.sockets
          (by simp [ConnectCalls.fails, socket]) back same
      simpa [Base.free, Base.others, kept] using result
    | true =>
      have given (fails : w.fails = true) : Connected w addr link b (false, _) :=
        .failed (b.memory.take.give b.memory.handed) (b.sockets.take.give b.sockets.handed) fails
          back back
      cases fcntl : w.fcntl with
      | false =>
        simpa [Base.free, Base.close, Base.others, kept] using
          given (by simp [ConnectCalls.fails, fcntl])
      | true =>
        by_cases stale : (w.connected && !w.inProgress) = true
        · simpa [stale, Base.free, Base.close, Base.others, kept] using
            given (by simp [ConnectCalls.fails, stale])
        · have works : w.fails = false := by simp_all [ConnectCalls.fails]
          have result : Connected w addr link b (true, _) := .opened works
          simpa [stale, Base.add] using result

theorem Connected.owns {w : ConnectCalls} {addr : α} {link : Nat} {r : Bool × Base α}
    (connected : Connected w addr link b r) (h : Owns b idents ss) :
    r.2.links = b.links ∧ r.2.undefined = b.undefined ∧
      (r.1 = false ∧ w.fails = true ∧ r.2.sessions = b.sessions ∧ Owns r.2 idents ss ∨
        ∃ t : Iecsock α, r.1 = true ∧ w.fails = false ∧ t.ident = b.memory.handed ∧
          t.addr = addr ∧ t.link = link ∧ r.2.sessions = t :: b.sessions ∧
          Owns r.2 (t.ident :: idents) (t :: ss)) := by
  cases connected with
  | failed memory sockets fails first second =>
    exact ⟨rfl, rfl, .inl ⟨rfl, fails, rfl,
      ⟨first _ h.memory, second _ h.sockets, h.bufferevents, h.watching, h.master⟩⟩⟩
  | opened works =>
    refine ⟨rfl, rfl, .inr ⟨_, rfl, works, rfl, rfl, rfl, rfl, ?_⟩⟩
    refine ⟨h.memory.take, h.sockets.take, h.bufferevents, h.watching.cons _, ?_⟩
    exact List.forall_mem_cons.mpr ⟨rfl, h.master⟩

end Owning

section Steps

variable {α : Type} {b b' : Base α} {s : Iecsock α}

/-- What becomes of the sessions and the links, and whose links are given up. -/
inductive Change (b : Base α) : List Nat → Base α → Prop where
  | same {b' : Base α} : b'.sessions = b.sessions → b'.links = b.links → Change b [] b'
  | new {b' : Base α} (t : Iecsock α) : t.link = b.links.length → b'.sessions = t :: b.sessions →
      b'.links = b.links ++ [t.addr] → Change b [] b'
  | moved {b' : Base α} (s t : Iecsock α) : s ∈ b.sessions → t.link = s.link → t.addr = s.addr →
      b'.sessions = t :: besides s.ident b.sessions → b'.links = b.links → Change b [] b'
  | lost {b' : Base α} (s : Iecsock α) : s ∈ b.sessions →
      b'.sessions = besides s.ident b.sessions → b'.links = b.links → Change b [s.link] b'

/-- The session at hand holds only its block any more. -/
def Released (b : Base α) (s : Iecsock α) : Prop :=
  Owns b (b.sessions.map Iecsock.ident) (besides s.ident b.sessions)

theorem Released.free (h : Released b s) (member : s ∈ b.sessions) : Sound (b.free s.ident) := by
  have perm := perm_besides h.memory.nodup member
  have blocks : Accounted (s.ident :: (besides s.ident b.sessions).map Iecsock.ident) b.memory :=
    h.memory.perm (perm.map Iecsock.ident)
  exact Owns.sound ⟨blocks.give, h.sockets, h.bufferevents, h.watching, h.master⟩

theorem Released.reconnect (h : Released b s) (member : s ∈ b.sessions) (w : ConnectCalls)
    {c : Base α} (made : c = (iecsockConnect w s.addr s.link b).2.free s.ident) :
    Sound c ∧ c.undefined = b.undefined ∧ Change b (if w.fails then [s.link] else []) c := by
  have fresh := h.memory.fresh
  have connected := iecsockConnect_connected w s.addr s.link fresh
  obtain ⟨links, undefined, ⟨_, fails, sessions, owns⟩ | ⟨t, _, works, ident, addr, link, sessions,
    owns⟩⟩ := connected.owns h
  · have released : Released (iecsockConnect w s.addr s.link b).2 s := by
      rw [Released, sessions]
      exact owns
    subst made
    refine ⟨released.free (sessions ▸ member), undefined, ?_⟩
    rw [if_pos fails]
    exact .lost s member (congrArg (besides s.ident) sessions) links
  · have other : t.ident ≠ s.ident := by
      intro same
      rw [← ident, same] at fresh
      exact fresh (List.mem_map_of_mem member)
    have kept : besides s.ident (t :: b.sessions) = t :: besides s.ident b.sessions :=
      List.filter_cons_of_pos (decide_eq_true other)
    have released : Released (iecsockConnect w s.addr s.link b).2 s := by
      rw [Released, sessions, kept]
      exact owns
    subst made
    refine ⟨released.free (sessions ▸ List.mem_cons_of_mem _ member), undefined, ?_⟩
    rw [if_neg (by simp [works])]
    refine .moved s t member link addr ?_ links
    rw [← kept, ← sessions]
    rfl

theorem Change.congr {c : Base α} {given : List Nat} (change : Change c given b')
    (sessions : c.sessions = b.sessions) (links : c.links = b.links) : Change b given b' := by
  cases change with
  | same first second => exact .same (first.trans sessions) (second.trans links)
  | new t number first second =>
    exact .new t (number.trans (congrArg _ links)) (sessions ▸ first) (links ▸ second)
  | moved s t member link addr first second =>
    exact .moved s t (sessions ▸ member) link addr (sessions ▸ first) (second.trans links)
  | lost s member first second =>
    exact .lost s (sessions ▸ member) (sessions ▸ first) (second.trans links)

theorem filterMap_cons_toList {β γ : Type} (f : β → Option γ) (x : β) (xs : List β) :
    (x :: xs).filterMap f = (f x).toList ++ xs.filterMap f := by
  cases here : f x with
  | none => rw [List.filterMap_cons_none here, Option.toList_none, List.nil_append]
  | some y => rw [List.filterMap_cons_some here, Option.toList_some, List.singleton_append]

theorem Change.undefined {given : List Nat} (change : Change b given b') (u : Bool) :
    Change b given { b' with undefined := u } := by
  cases change with
  | same first second => exact .same first second
  | new t number first second => exact .new t number first second
  | moved s t member link addr first second => exact .moved s t member link addr first second
  | lost s member first second => exact .lost s member first second

theorem Sound.split (h : Sound b) (member : s ∈ b.sessions) (f : Iecsock α → Option Nat) :
    (b.sessions.filterMap f).Perm ((f s).toList ++ (besides s.ident b.sessions).filterMap f) := by
  rw [← filterMap_cons_toList]
  exact (perm_besides h.distinct member).filterMap f

theorem Sound.besides_watching (h : Sound b) (member : s ∈ b.sessions) (ws : List Watch)
    (all : ∀ w, s.phase.allows w → w ∈ ws) :
    Watching (besides s.ident b.sessions) (b.del s.ident ws).events :=
  (h.owns.watching.drop s.ident).congr (h.owns.watching.deleted h.distinct member all)

theorem Sound.besides_master (h : Sound b) (i : Nat) :
    ∀ t ∈ besides i b.sessions, t.type = .master :=
  fun t member => h.master t (mem_besides.mp member).1

theorem Sound.timer (h : Sound b) (member : s ∈ b.sessions) {t : Watch}
    (handled : t.handled = true) (up : s.phase.io.isSome = true) (on : Bool) :
    Sound (if on then b.add s.ident t else b.del s.ident [t]) := by
  cases on with
  | true =>
    have watching := h.owns.watching.add member (.inr ⟨up, handled⟩ : s.phase.allows t)
    exact Owns.sound ⟨h.memory, h.sockets, h.bufferevents, watching, h.master⟩
  | false =>
    refine Owns.sound ⟨h.memory, h.sockets, h.bufferevents, ⟨?_, ?_⟩, h.master⟩
    · intro e inside
      exact h.watched e (List.mem_filter.mp inside).1
    · intro r inside
      refine List.mem_filter.mpr ⟨h.driven r inside, decide_eq_true ?_⟩
      rintro ⟨_, same⟩
      have driver : r.phase.driver = t := List.mem_singleton.mp same
      rw [← driver] at handled
      cases phase : r.phase <;> rw [phase] at handled <;> cases handled

theorem closes (h : Sound b) (member : s ∈ b.sessions) {sock io : Nat}
    (phase : s.phase = .up sock io) (w : ConnectCalls) :
    Sound (iecsockClose w s sock io b) ∧ (iecsockClose w s sock io b).undefined = b.undefined ∧
      Change b (if w.fails then [s.link] else []) (iecsockClose w s sock io b) := by
  have sockets := h.sockets.perm (h.split member fun s => s.phase.sock)
  have bufferevents := h.bufferevents.perm (h.split member fun s => s.phase.io)
  simp only [phase, Phase.sock, Phase.io, Option.toList_some, List.singleton_append]
    at sockets bufferevents
  -- deleting the timers and then the input is deleting all that a connection allows
  have all : ∀ v, s.phase.allows v → v ∈ [.t0, .t1, .t2, .t3, .user, .readable] := by
    rintro v (driver | ⟨_, handled⟩)
    · rw [driver, phase, Phase.driver]
      decide
    · cases v <;> first | decide | cases handled
  have watching : Watching (besides s.ident b.sessions)
      ((b.del s.ident [.t0, .t1, .t2, .t3, .user]).del s.ident [.readable]).events := by
    refine (h.besides_watching member _ all).congr fun e => ?_
    simp only [Base.del, List.mem_filter, decide_eq_true_eq, List.mem_cons, List.not_mem_nil,
      or_false]
    tauto
  have released : Released
      (({ (b.del s.ident [.t0, .t1, .t2, .t3, .user]).del s.ident [.readable] with
        bufferevents := b.bufferevents.give io } : Base α).close sock) s :=
    ⟨h.memory, sockets.give, bufferevents.give, watching, h.besides_master s.ident⟩
  have made : iecsockClose w s sock io b =
      (iecsockConnect w s.addr s.link
        (({ (b.del s.ident [.t0, .t1, .t2, .t3, .user]).del s.ident [.readable] with
          bufferevents := b.bufferevents.give io } : Base α).close sock)).2.free s.ident := by
    unfold iecsockClose
    simp only
    rw [if_pos (h.master s member)]
    rfl
  obtain ⟨sound, undefined, change⟩ := released.reconnect member w made
  exact ⟨sound, undefined, change.congr rfl rfl⟩

theorem callback_session (h : Sound b) {i : Nat} {w : Watch} {f : Iecsock α → Base α}
    (happens : callback b i w f = some b') :
    ∃ s ∈ b.sessions, s.ident = i ∧ s.phase.allows w ∧ b' = f s := by
  unfold callback at happens
  split at happens
  · rename_i event
    obtain ⟨s, member, (same : s.ident = i), allowed⟩ := h.watched _ event
    rw [← same, find_session h.distinct member] at happens
    exact ⟨s, member, same, allowed, (Option.some.inj happens).symm⟩
  · cases happens

theorem Phase.allows_connectable {p : Phase} (allowed : p.allows .connectable) :
    ∃ sock, p = .connecting sock := by
  rcases allowed with driver | ⟨_, handled⟩
  · cases p with
    | connecting sock => exact ⟨sock, rfl⟩
    | waiting => cases driver
    | up sock io => cases driver
  · cases handled

theorem Phase.allows_t0 {p : Phase} (allowed : p.allows .t0) : p = .waiting := by
  rcases allowed with driver | ⟨_, handled⟩
  · cases p with
    | connecting sock => cases driver
    | waiting => rfl
    | up sock io => cases driver
  · cases handled

theorem Phase.allows_up {p : Phase} {w : Watch} (late : w.handled = true ∨ w = .readable)
    (allowed : p.allows w) : ∃ sock io, p = .up sock io := by
  cases p with
  | up sock io => exact ⟨sock, io, rfl⟩
  | connecting sock =>
    rcases allowed with rfl | ⟨none, _⟩
    · rcases late with handled | other
      · cases handled
      · cases other
    · cases none
  | waiting =>
    rcases allowed with rfl | ⟨none, _⟩
    · rcases late with handled | other
      · cases handled
      · cases other
    · cases none

/-- One step: everything stays accounted for, freed memory is used behind two events only, and a
link loses its session if the call fails that is to give it another one. -/
structure Lands (b : Base α) (e : Event α) (b' : Base α) : Prop where
  sound : Sound b'
  undefined : b'.undefined = touches e
  change : Change b (failing b e) b'

theorem givenUp_eq (h : Sound b) (member : s ∈ b.sessions) (fails : Bool) :
    givenUp b s.ident fails = if fails then [s.link] else [] := by
  rw [givenUp, find_session h.distinct member]
  rfl

theorem lands_connect (h : Sound b) (defined : b.undefined = false) (addr : α) (w : ConnectCalls)
    (happens : step b (.connect addr w) = some b') : Lands b (.connect addr w) b' := by
  rw [step, if_neg (by simp [defined])] at happens
  have connected := iecsockConnect_connected w addr b.links.length h.memory.fresh
  obtain ⟨links, undefined, ⟨failed, _, sessions, owns⟩ | ⟨t, done, _, _, address, link, sessions,
    owns⟩⟩ := connected.owns h.owns
  · obtain rfl := Option.some.inj happens
    simp only [failed, Bool.false_eq_true, if_false]
    refine ⟨Owns.sound (sessions ▸ owns), undefined.trans defined, .same sessions links⟩
  · obtain rfl := Option.some.inj happens
    simp only [done, if_true]
    have sound : Sound (iecsockConnect w addr b.links.length b).2 :=
      Owns.sound (by rw [sessions]; exact owns)
    refine ⟨⟨sound.memory, sound.sockets, sound.bufferevents, sound.watched, sound.driven,
      sound.master⟩, undefined.trans defined, .new t link sessions ?_⟩
    rw [address]
    exact congrArg (· ++ [addr]) links

theorem lands_accept (h : Sound b) (defined : b.undefined = false) (addr : α) (w : AcceptCalls) :
    Lands b (.accept addr w) (listenReadcb w addr b) := by
  have kept : besides b.memory.handed b.sessions = b.sessions := besides_fresh h.memory.fresh
  have back : Accounted (b.sessions.map Iecsock.ident) (b.memory.take.give b.memory.handed) :=
    h.memory.take.give
  have closed := h.sockets.take.give
  have whole : Sound { b with memory := b.memory.take.give b.memory.handed } :=
    ⟨back, h.sockets, h.bufferevents, h.watched, h.driven, h.master⟩
  have without : Lands b (.accept addr w)
      { b with
        memory := b.memory.take.give b.memory.handed
        sockets := b.sockets.take.give b.sockets.handed } :=
    ⟨⟨back, closed, h.bufferevents, h.watched, h.driven, h.master⟩, defined, .same rfl rfl⟩
  unfold listenReadcb
  cases calloc : w.calloc with
  | false => exact ⟨h, defined, .same rfl rfl⟩
  | true =>
    cases accept : w.accept with
    | false =>
      simpa [Base.free, Base.others, kept] using
        (⟨whole, defined, .same rfl rfl⟩ : Lands b (.accept addr w) _)
    | true =>
      cases setsockopt : w.setsockopt with
      | false => simpa [Base.free, Base.close, Base.others, kept] using without
      | true =>
        cases bufferevent : w.bufferevent with
        | false => simpa [Base.free, Base.close, Base.others, kept] using without
        | true =>
          refine ⟨Owns.sound ⟨h.memory.take, h.sockets.take, h.bufferevents.take, ?_, ?_⟩, defined,
            .new ⟨b.memory.handed, .master, addr, .up b.sockets.handed b.bufferevents.handed,
              b.links.length⟩ rfl rfl rfl⟩
          · exact (h.owns.watching.cons _).add List.mem_cons_self (.inr ⟨rfl, rfl⟩)
          · exact List.forall_mem_cons.mpr ⟨rfl, h.master⟩

theorem lands_timeout (h : Sound b) (defined : b.undefined = false) {i : Nat}
    (happens : callback b i .connectable
      (fun _ => (b.del i [.connectable]).add i .connectable) = some b') :
    Lands b (.timeout i) b' := by
  obtain ⟨s, member, rfl, allowed, rfl⟩ := callback_session h happens
  obtain ⟨sock, phase⟩ := Phase.allows_connectable allowed
  have driver : s.phase.driver = .connectable := by rw [phase]; rfl
  have event : (s.ident, Watch.connectable) ∈ b.events := driver ▸ h.driven s member
  have watching : Watching b.sessions
      ((b.del s.ident [.connectable]).add s.ident .connectable).events := by
    refine h.owns.watching.congr fun e => ?_
    simp only [Base.add, Base.del, List.mem_cons, List.mem_filter, decide_eq_true_eq,
      List.not_mem_nil, or_false]
    constructor
    · rintro (rfl | ⟨inside, _⟩)
      · exact event
      · exact inside
    · intro inside
      by_cases same : e.1 = s.ident ∧ e.2 = .connectable
      · exact .inl (Prod.ext same.1 same.2)
      · exact .inr ⟨inside, same⟩
  exact ⟨Owns.sound ⟨h.memory, h.sockets, h.bufferevents, watching, h.master⟩, defined,
    .same rfl rfl⟩

theorem Sound.moves (h : Sound b) (member : s ∈ b.sessions) (phase : Phase) {p q : Pool}
    {events : List (Nat × Watch)}
    (first : Accounted ((phase.sock).toList ++
      (besides s.ident b.sessions).filterMap fun s => s.phase.sock) p)
    (second : Accounted ((phase.io).toList ++
      (besides s.ident b.sessions).filterMap fun s => s.phase.io) q)
    (watching : Watching (besides s.ident b.sessions) events) (links : List α) (undefined : Bool) :
    Sound
      { b with
        sessions := { s with phase := phase } :: besides s.ident b.sessions
        sockets := p
        bufferevents := q
        events := (s.ident, phase.driver) :: events
        links := links
        undefined := undefined } := by
  refine Owns.sound ⟨?_, ?_, ?_, watching.cons { s with phase := phase }, ?_⟩
  · exact h.memory.perm ((perm_besides h.distinct member).map Iecsock.ident)
  · rw [filterMap_cons_toList]
    exact first
  · rw [filterMap_cons_toList]
    exact second
  · exact List.forall_mem_cons.mpr ⟨h.master s member, h.besides_master s.ident⟩

theorem lands_writable (h : Sound b) (defined : b.undefined = false) {i : Nat}
    {opt bufferevent : Bool}
    (happens : step b (.writable i opt bufferevent) = some b') :
    Lands b (.writable i opt bufferevent) b' := by
  rw [step, if_neg (by simp [defined])] at happens
  obtain ⟨s, member, rfl, allowed, rfl⟩ := callback_session h happens
  obtain ⟨sock, phase⟩ := Phase.allows_connectable allowed
  have sockets := h.sockets.perm (h.split member fun s => s.phase.sock)
  have bufferevents := h.bufferevents.perm (h.split member fun s => s.phase.io)
  simp only [phase, Phase.sock, Phase.io, Option.toList_some, Option.toList_none,
    List.singleton_append, List.nil_append] at sockets bufferevents
  have only : ∀ w, s.phase.allows w → w = .connectable := by
    rintro w (driver | ⟨late, _⟩)
    · rw [driver, phase, Phase.driver]
    · rw [phase] at late
      cases late
  have watching := h.besides_watching member [.connectable] fun w here =>
    List.mem_singleton.mpr (only w here)
  have watching' : Watching (besides s.ident b.sessions)
      ((b.del s.ident [.connectable]).del s.ident [.t0]).events := by
    refine (h.besides_watching member [.connectable, .t0] fun w here =>
      List.mem_cons.mpr (.inl (only w here))).congr fun e => ?_
    simp only [Base.del, List.mem_filter, decide_eq_true_eq, List.mem_cons, List.not_mem_nil,
      or_false]
    tauto
  simp only [withSocket, phase]
  cases opt with
  | true =>
    have moved := h.moves member .waiting (p := b.sockets.give sock) sockets.give bufferevents
      watching b.links b.undefined
    exact ⟨moved, defined, .moved s { s with phase := .waiting } member rfl rfl rfl rfl⟩
  | false =>
    cases bufferevent with
    | false =>
      have released : Released ((b.del s.ident [.connectable]).del s.ident [.t0] |>.close sock) s :=
        ⟨h.memory, sockets.give, bufferevents, watching', h.besides_master s.ident⟩
      have sound := released.free member
      refine ⟨⟨sound.memory, sound.sockets, sound.bufferevents, sound.watched, sound.driven,
        sound.master⟩, rfl, ?_⟩
      rw [failing, givenUp_eq h member]
      exact .lost s member rfl rfl
    | true =>
      have moved := h.moves member (.up sock b.bufferevents.handed) (p := b.sockets) sockets
        bufferevents.take watching' b.links b.undefined
      have started := moved.timer List.mem_cons_self (t := .t1) rfl rfl true
      exact ⟨started, defined,
        .moved s { s with phase := .up sock b.bufferevents.handed } member rfl rfl rfl rfl⟩

theorem lands_t0 (h : Sound b) (defined : b.undefined = false) {i : Nat} {w : ConnectCalls}
    (happens : step b (.t0 i w) = some b') : Lands b (.t0 i w) b' := by
  rw [step, if_neg (by simp [defined])] at happens
  obtain ⟨s, member, rfl, allowed, rfl⟩ := callback_session h happens
  have phase := Phase.allows_t0 allowed
  have sockets := h.sockets.perm (h.split member fun s => s.phase.sock)
  have bufferevents := h.bufferevents.perm (h.split member fun s => s.phase.io)
  simp only [phase, Phase.sock, Phase.io, Option.toList_none, List.nil_append]
    at sockets bufferevents
  have only : ∀ v, s.phase.allows v → v ∈ [Watch.t0] := by
    rintro v (driver | ⟨late, _⟩)
    · rw [driver, phase, Phase.driver]
      exact List.mem_singleton_self _
    · rw [phase] at late
      cases late
  have released : Released (b.del s.ident [.t0]) s :=
    ⟨h.memory, sockets, bufferevents, h.besides_watching member _ only, h.besides_master s.ident⟩
  obtain ⟨sound, undefined, change⟩ := released.reconnect member w rfl
  refine ⟨sound, undefined.trans defined, ?_⟩
  rw [failing, givenUp_eq h member]
  exact change.congr rfl rfl

theorem lands_closed (h : Sound b) (defined : b.undefined = false) {i : Nat} {w : ConnectCalls}
    {e : Event α} (closing : e = .t1 i w ∨ e = .error i w ∨ e = .rejected i w)
    (happens : step b e = some b') : Lands b e b' := by
  rcases closing with rfl | rfl | rfl
  · rw [step, if_neg (by simp [defined])] at happens
    obtain ⟨s, member, rfl, allowed, rfl⟩ := callback_session h happens
    obtain ⟨sock, io, phase⟩ := Phase.allows_up (.inl rfl) allowed
    have stopped := h.timer member (t := .t1) rfl (by rw [phase]; rfl) false
    obtain ⟨sound, undefined, change⟩ := closes stopped member phase w
    simp only [withIo, phase]
    refine ⟨sound, undefined.trans defined, ?_⟩
    rw [failing, givenUp_eq h member]
    exact change.congr rfl rfl
  · rw [step, if_neg (by simp [defined])] at happens
    obtain ⟨s, member, rfl, allowed, rfl⟩ := callback_session h happens
    obtain ⟨sock, io, phase⟩ := Phase.allows_up (.inr rfl) allowed
    obtain ⟨sound, undefined, change⟩ := closes h member phase w
    simp only [withIo, phase]
    refine ⟨sound, undefined.trans defined, ?_⟩
    rw [failing, givenUp_eq h member]
    exact change
  · rw [step, if_neg (by simp [defined])] at happens
    obtain ⟨s, member, rfl, allowed, rfl⟩ := callback_session h happens
    obtain ⟨sock, io, phase⟩ := Phase.allows_up (.inr rfl) allowed
    obtain ⟨sound, _, change⟩ := closes h member phase w
    simp only [withIo, phase]
    refine ⟨⟨sound.memory, sound.sockets, sound.bufferevents, sound.watched, sound.driven,
      sound.master⟩, rfl, ?_⟩
    rw [failing, givenUp_eq h member]
    exact change.undefined true

theorem step_lands (h : Sound b) {e : Event α} (happens : step b e = some b') : Lands b e b' := by
  have defined : b.undefined = false := by
    cases here : b.undefined with
    | false => rfl
    | true =>
      unfold step at happens
      rw [if_pos here] at happens
      cases happens
  cases e with
  | connect addr w => exact lands_connect h defined addr w happens
  | accept addr w =>
    rw [step, if_neg (by simp [defined])] at happens
    obtain rfl := Option.some.inj happens
    exact lands_accept h defined addr w
  | timeout i =>
    rw [step, if_neg (by simp [defined])] at happens
    exact lands_timeout h defined happens
  | writable i opt bufferevent => exact lands_writable h defined happens
  | t0 i w => exact lands_t0 h defined happens
  | t1 i w => exact lands_closed h defined (.inl rfl) happens
  | timer i t on =>
    rw [step, if_neg (by simp [defined])] at happens
    split at happens
    · rename_i handled
      obtain ⟨s, member, rfl, allowed, rfl⟩ := callback_session h happens
      obtain ⟨sock, io, phase⟩ := Phase.allows_up (.inr rfl) allowed
      refine ⟨h.timer member handled (by rw [phase]; rfl) on, ?_, ?_⟩
      · cases on <;> exact defined
      · cases on <;> exact .same rfl rfl
    · cases happens
  | error i w => exact lands_closed h defined (.inr (.inl rfl)) happens
  | rejected i w => exact lands_closed h defined (.inr (.inr rfl)) happens

end Steps

section Runs

variable {α : Type} {b b' : Base α} {es : List (Event α)}

theorem sound_init : Sound (Base.init : Base α) where
  memory := accounted_empty
  sockets := accounted_empty
  bufferevents := accounted_empty
  watched _ member := absurd member List.not_mem_nil
  driven _ member := absurd member List.not_mem_nil
  master _ member := absurd member List.not_mem_nil

theorem run_sound (reached : run step Base.init es = some b) : Sound b :=
  run_invariant (fun _ _ _ h happens => (step_lands h happens).sound) sound_init reached

/-- In every run every block, socket and `bufferevent` is in use by one session or was given back
once, nothing is watched for a block that was freed, and freed memory is used if and only if the
last event was a rejected frame or a connection for which there is no `bufferevent`. -/
theorem resources_accounted (reached : run step Base.init es = some b) :
    Sound b ∧ (b.undefined = true ↔ es.getLast?.any touches = true) := by
  refine ⟨run_sound reached, ?_⟩
  rcases List.eq_nil_or_concat' es with rfl | ⟨init, e, rfl⟩
  · obtain rfl := Option.some.inj reached
    simp [Base.init]
  · rw [run_append] at reached
    obtain ⟨c, earlier, last⟩ := Option.bind_eq_some_iff.mp reached
    obtain ⟨d, happens, done⟩ := Option.bind_eq_some_iff.mp last
    obtain rfl := Option.some.inj done
    rw [List.getLast?_concat, Option.any_some, (step_lands (run_sound earlier) happens).undefined]

/-- Calls that all succeed; the connection is not there at once. -/
def works : ConnectCalls := ⟨true, true, true, false, true⟩

/-- One link connects, is lost, is refused once and connects anew; the other one came in, and is
given up when it is lost and no memory is left. -/
def twoLinks : List (Event Nat) :=
  [.connect 7 works, .writable 0 false true, .accept 9 ⟨true, true, true, true⟩,
    .timer 0 .t2 true, .error 0 works, .t1 1 { works with calloc := false }, .timeout 2,
    .writable 2 true true, .t0 2 works]

theorem resources_accounted_twoLinks : ∃ b, run step Base.init twoLinks = some b ∧ Sound b ∧
    (b.undefined = true ↔ twoLinks.getLast?.any touches = true) := by
  have reached : run step Base.init twoLinks = some _ := rfl
  exact ⟨_, reached, resources_accounted reached⟩

/-- Every link has one session, or was given up once; and a session has the address of its
link. -/
structure Linked (b : Base α) (given : List Nat) : Prop where
  links : (b.sessions.map Iecsock.link ++ given).Perm (List.range b.links.length)
  addresses : ∀ s ∈ b.sessions, b.links[s.link]? = some s.addr

theorem Linked.change {given more : List Nat} (h : Linked b given)
    (distinct : (b.sessions.map Iecsock.ident).Nodup) (change : Change b more b') :
    Linked b' (given ++ more) := by
  cases change with
  | same sessions links =>
    refine ⟨?_, ?_⟩
    · rw [sessions, links, List.append_nil]
      exact h.links
    · rw [sessions, links]
      exact h.addresses
  | new t number sessions links =>
    refine ⟨?_, ?_⟩
    · rw [sessions, links, List.append_nil, List.length_append, List.length_singleton,
        List.range_succ, List.map_cons, List.cons_append, number]
      exact (h.links.cons _).trans (List.perm_append_singleton _ _).symm
    · rw [sessions, links]
      intro s member
      rcases List.mem_cons.mp member with rfl | member
      · rw [number, List.getElem?_append_right (Nat.le_refl _), Nat.sub_self]
        rfl
      · have here := h.addresses s member
        have inside := (List.getElem?_eq_some_iff.mp here).1
        rw [List.getElem?_append_left inside]
        exact here
  | moved s t member link addr sessions links =>
    have perm := perm_besides distinct member
    refine ⟨?_, ?_⟩
    · rw [sessions, links, List.append_nil, List.map_cons, link]
      exact ((perm.map Iecsock.link).symm.append_right _).trans h.links
    · rw [sessions, links]
      intro r inside
      rcases List.mem_cons.mp inside with rfl | inside
      · rw [link, addr]
        exact h.addresses s member
      · exact h.addresses r (mem_besides.mp inside).1
  | lost s member sessions links =>
    have perm := perm_besides distinct member
    refine ⟨?_, ?_⟩
    · rw [sessions, links]
      have moved : ((besides s.ident b.sessions).map Iecsock.link ++ (given ++ [s.link])).Perm
          ((s :: besides s.ident b.sessions).map Iecsock.link ++ given) := by
        rw [← List.append_assoc, List.map_cons, List.cons_append]
        exact List.perm_append_singleton _ _
      exact moved.trans (((perm.map Iecsock.link).symm.append_right _).trans h.links)
    · rw [sessions, links]
      exact fun r inside => h.addresses r (mem_besides.mp inside).1

/-- In every run every link that the program or the listener ever began has exactly one session,
for its address, with what will take it further watched; or it has none, once and for all, since
the call failed that was to give it another one. -/
theorem links_persist (reached : run step Base.init es = some b) :
    Linked b (observe step failing Base.init es) ∧
      ∀ s ∈ b.sessions, (s.ident, s.phase.driver) ∈ b.events := by
  have both := run_history (J := fun b past => Sound b ∧ Linked b past)
    (fun b e t past inv happens =>
      have lands := step_lands inv.1 happens
      ⟨lands.sound, inv.2.change inv.1.distinct lands.change⟩)
    ⟨sound_init, ⟨List.Perm.refl _, fun s member => absurd member List.not_mem_nil⟩⟩ reached
  exact ⟨both.2, both.1.driven⟩

theorem links_persist_twoLinks : ∃ b, run step Base.init twoLinks = some b ∧
    Linked b (observe step failing Base.init twoLinks) ∧
      ∀ s ∈ b.sessions, (s.ident, s.phase.driver) ∈ b.events := by
  have reached : run step Base.init twoLinks = some _ := rfl
  exact ⟨_, reached, links_persist reached⟩

example : observe step failing Base.init twoLinks = [1] := by decide

end Runs

end IecUtils.Link.Lifecycle
