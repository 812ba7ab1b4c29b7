/- Module: IecUtils/Queue/Manager
   source: quemngr/quemngr.c
   digest: The operations of quemngr on the spool and on its lists, call by call. -/

import IecUtils.Foundation.Transition
import IecUtils.Queue.Control
import Mathlib.Logic.Function.Basic

set_option autoImplicit false
set_option relaxedAutoImplicit false

namespace IecUtils.Queue.Manager

open IecUtils.Foundation.LinkTable
open IecUtils.Foundation.Transition
open IecUtils.Queue.Files
open IecUtils.Queue.Heap
open IecUtils.Queue.Control

def winsize : Int := 1
def windefsize : Int := 10
def timerheapsize : Nat := 16

def ACT : Nat := 0

def IN : Nat := 1

/-- `quelist[q].dir`, for lists sorted as `initqueue` leaves them. -/
def dirOf (q : Nat) : Dir := if q = ACT then .act else .que q

/-- The spool at one point between two file calls. `held` are the message files it
has received and not yet delivered. -/
structure Point where
  fs : Fs
  held : List Ino
  deriving DecidableEq

/-- A file call, with the message it delivers if it is the last one for it. -/
structure Action where
  call : Call
  delivers : Option Ino := none

def Point.after (p : Point) (a : Action) (fs : Fs) : Point :=
  ⟨fs, p.held.filter fun i => a.delivers ≠ some i⟩

/-- One execution of COPYFILE into `act`: whether the inode was already in
`quelist[ACT]`, and the error of `link`. -/
structure Copy where
  queue : Nat
  ino : Ino
  busy : Bool
  error : Option Errno
  deriving DecidableEq

/-- The static variables of `quemngr.c`, the spool and every point it has passed,
the file names `due` at the sender with whether it has confirmed reading them, and
the executions of COPYFILE. -/
structure QueueState where
  disk : Point
  trail : List Point
  quelist : Nat → Msglist
  countq : Nat
  timerheap : TimerHeap
  due : List (Ino × Bool)
  copies : List Copy
  exited : Bool

def QueueState.put (m : QueueState) (q : Nat) (l : Msglist) : QueueState :=
  { m with quelist := Function.update m.quelist q l }

def QueueState.onDisk (m : QueueState) (p : Point) (trail : List Point) : QueueState :=
  { m with disk := p, trail := trail }

def QueueState.logCopy (m : QueueState) (q : Nat) (i : Ino) (error : Option Errno) :
    QueueState :=
  { m with copies := m.copies ++ [⟨q, i, decide (i ∈ (m.quelist ACT).inodes), error⟩] }

section Operations

/-- Make file calls one after another and then change the lists. ERR_SYS ends the
process at the first call that fails. -/
def perform : List Action → (QueueState → QueueState) → QueueState → QueueState
  | [], commit, m => commit m
  | a :: rest, commit, m =>
      match a.call.exec m.disk.fs with
      | .error _ => { m with exited := true }
      | .ok fs =>
          let p := m.disk.after a fs
          perform rest commit (m.onDisk p (m.trail ++ [p]))

/-- `elem_add` on the ACT list, the write to the sender and `send++`. -/
def dispatch (q : Nat) (i : Ino) (m : QueueState) : QueueState :=
  let m := m.put ACT (elemAdd (m.quelist ACT) (elemNew i ⟨0, 0⟩ q))
  let m := { m with due := m.due ++ [(i, false)] }
  m.put q { m.quelist q with send := (m.quelist q).send + 1 }

def copyCall (q : Nat) (i : Ino) : Call := .link (dirOf q, ld i) (.act, ld i)

def copyError (q : Nat) (i : Ino) (fs : Fs) : Option Errno :=
  match (copyCall q i).exec fs with
  | .ok _ => none
  | .error e => some e

/-- The body shared by the IN branch, the timer branch and `flush_queue`. -/
def sendFile (q : Nat) (i : Ino) (m : QueueState) : QueueState :=
  perform [{ call := copyCall q i }] (dispatch q i) (m.logCopy q i (copyError q i m.disk.fs))

/-- The condition under which the next message of a queue may be sent. -/
def mayTransmit (m : QueueState) (q : Nat) (window : Int) : Prop :=
  (m.quelist q).send < window ∧ (m.quelist q).send < (m.quelist q).total ∧
    (m.quelist q).send = (m.quelist q).conf

instance (m : QueueState) (q : Nat) (window : Int) : Decidable (mayTransmit m q window) :=
  inferInstanceAs (Decidable (_ ∧ _))

def getFilename (m : QueueState) (q : Nat) : Option Ino :=
  ((m.quelist q).msg[(m.quelist q).send.toNat]?).map Msg.inode

/-- The turn of the IN branch or of `flush_queue` for one queue. -/
def sendNext (q : Nat) (m : QueueState) : QueueState :=
  if mayTransmit m q winsize then
    match getFilename m q with
    | none => m
    | some i => sendFile q i m
  else m

/-- `stat` on a file moved into `in`, and `elem_add` for the inode it shows. -/
def takeIn (name : Int) (tv : Timeval) (m : QueueState) : QueueState :=
  match lookup m.disk.fs (dirOf IN, name) with
  | none => { m with exited := true }
  | some stIno => m.put IN (elemAdd (m.quelist IN) (elemNew stIno tv IN))

/-- One directory entry of the loop in `scan_drop`, with the times `stat` gives. -/
def scanEntry (m : QueueState) (name : Int) (dIno : Ino) (tv : Timeval) : QueueState :=
  if m.exited then m
  else if strtoul name = dIno then
    perform [{ call := .rename (.drop, name) (dirOf IN, name) }] (takeIn name tv) m
  else m

/-- A directory entry with its inode number and the times of the file. -/
structure Dirent where
  name : Int
  ino : Ino
  tv : Timeval
  deriving DecidableEq

def scanLoop (entries : List Dirent) (m : QueueState) : QueueState :=
  entries.foldl (fun m d => scanEntry m d.name d.ino d.tv) m

/-- `scan_drop` on what `readdir` lists, with the order `qsort` gives at the end. -/
def scanDrop (entries : List Dirent) (sorted : List Msg) (m : QueueState) : QueueState :=
  let m := scanLoop entries m
  if m.exited then m
  else if entries.any fun d => strtoul d.name = d.ino then
    m.put IN { m.quelist IN with msg := sorted }
  else m

def settle (state : Nat) (i : Ino) (m : QueueState) : QueueState :=
  let m := m.put ACT (elemDel (m.quelist ACT) i)
  let m := m.put state (elemDel (m.quelist state) i)
  m.put state { m.quelist state with
    conf := (m.quelist state).conf - 1
    send := (m.quelist state).send - 1 }

def addTimer (q : Nat) (i : Ino) (now : Timeval) (m : QueueState) : QueueState :=
  let key : Timeval := { now with sec := now.sec + (m.quelist q).timeout }
  { m with timerheap := heapInsert m.timerheap key q i.toUInt32 }

/-- The changes to the lists when a message goes to the next deferred queue. -/
def requeue (state : Nat) (i : Ino) (now : Timeval) (m : QueueState) : QueueState :=
  let m := m.put (state + 1)
    (elemAdd (m.quelist (state + 1)) (elemNew i ⟨0, 0⟩ (state + 1)))
  addTimer (state + 1) i now (settle state i m)

def checkResponse (i : Ino) (retval : Int) (now : Timeval) (m : QueueState) : QueueState :=
  match elemFind (m.quelist ACT) i with
  | none => m
  | some indelem =>
      match (m.quelist ACT).msg[indelem]? with
      | none => m
      | some elem =>
          let state := elem.state
          if retval = 0 then
            perform [{ call := .unlink (.act, ld i) },
              { call := .unlink (dirOf state, ld i), delivers := some i }] (settle state i) m
          else if retval = 1 then
            m.put state { m.quelist state with conf := (m.quelist state).conf + 1 }
          else if state = m.countq then
            perform [{ call := .unlink (.act, ld i) },
              { call := .rename (dirOf state, ld i) (.fail, ld i) }] (settle state i) m
          else
            perform [{ call := .unlink (.act, ld i) },
              { call := .rename (dirOf state, ld i) (dirOf (state + 1), ld i) }]
              (requeue state i now) m

/-- `definode = minnode->inode`: the `int` is extended by its sign. -/
def definode (n : UInt32) : Ino :=
  if n.toNat < 2 ^ 31 then n.toUInt64 else n.toUInt64 + 0xffffffff00000000

def timerExpired (m : QueueState) : QueueState :=
  match heapMin m.timerheap with
  | none => m
  | some minnode =>
      let i := definode minnode.inode
      let q := minnode.indque
      match elemFind (m.quelist q) i with
      | none => { m with timerheap := heapExtractMin m.timerheap }
      | some _ =>
          if mayTransmit m q windefsize then
            let m := sendFile q i m
            if m.exited then m else { m with timerheap := heapExtractMin m.timerheap }
          else m

/-- `initqueue` up to its `scan_drop`, for a spool with `deferred` directories in
`df`: every list holds the files of its directory. -/
def initqueue (fs : Fs) (deferred : Nat) (timeout : Nat → Nat) (restored : Nat → List Msg) :
    QueueState :=
  let p : Point := ⟨fs, (fs.filter fun l => l.dir ≠ .act).map Entry.file⟩
  { disk := p
    trail := [p]
    quelist := fun q => ⟨if q = ACT then [] else restored q, 0, 0, timeout q⟩
    countq := deferred + 1
    timerheap := heapCreate timerheapsize
    due := []
    copies := []
    exited := false }

/-- What `queue_restore` may put into the lists: an entry for each file, in any order. -/
def Restores (fs : Fs) (deferred : Nat) (restored : Nat → List Msg) : Prop :=
  ∀ q, 1 ≤ q → q ≤ deferred + 1 →
    ((restored q).map Msg.inode).Perm ((fs.filter fun l => l.dir = .que q).map Entry.file)

end Operations

/-- The operations in any order, and files that other programs drop. SIGHUP and
SIGUSR1 switch `isconnect`; what SIGUSR1 does to the queues is a `scan` and then a
`flushSend` for each turn of `flush_queue`. -/
inductive QueueEvent where
  | arrive (i : Ino)
  | signal (isconnect : Bool)
  | scan (entries : List Dirent) (sorted : List Msg)
  | sendIn
  | flushSend (q : Nat)
  | expire
  | response (i : Ino) (code : Int) (now : Timeval)

/-- The entries `readdir` lists are those of `drop`. -/
def Readdir (fs : Fs) (entries : List Dirent) : Prop :=
  (entries.map fun d => (⟨.drop, d.name, d.ino⟩ : Entry Dir Int Ino)).Perm
    (fs.filter fun l => l.dir = .drop)

instance (fs : Fs) (entries : List Dirent) : Decidable (Readdir fs entries) :=
  inferInstanceAs (Decidable (List.Perm _ _))

/-- A new file in `drop` under its own inode number. -/
def dropFile (i : Ino) (m : QueueState) : QueueState :=
  let p : Point := ⟨m.disk.fs ++ [⟨.drop, i.toNat, i⟩], i :: m.disk.held⟩
  m.onDisk p (m.trail ++ [p])

def answered (due : List (Ino × Bool)) (i : Ino) (code : Int) : List (Ino × Bool) :=
  if code = 1 then (i, true) :: due.erase (i, false) else due.erase (i, true)

def QueueState.answer (m : QueueState) (i : Ino) (code : Int) : QueueState :=
  { m with due := answered m.due i code }

def queueStep (m : QueueState) (e : QueueEvent) : Option QueueState :=
  if m.exited then none
  else
    match e with
    | .arrive i => if ∀ l ∈ m.disk.fs, l.file ≠ i then some (dropFile i m) else none
    | .signal _ => some m
    | .scan entries sorted =>
        if Readdir m.disk.fs entries ∧
            QueueSort ((scanLoop entries m).quelist IN).msg sorted then
          some (scanDrop entries sorted m)
        else none
    | .sendIn => some (sendNext IN m)
    | .flushSend q => if 1 ≤ q ∧ q ≤ m.countq then some (sendNext q m) else none
    | .expire => some (timerExpired m)
    | .response i code now => some (checkResponse i code now (m.answer i code))

/-- What an operation does, and when it can. -/
inductive Performs (m : QueueState) : QueueEvent → QueueState → Prop
  | arrive (i : Ino) (fresh : ∀ l ∈ m.disk.fs, l.file ≠ i) : Performs m (.arrive i) (dropFile i m)
  | signal (isconnect : Bool) : Performs m (.signal isconnect) m
  | scan (entries : List Dirent) (sorted : List Msg) (listing : Readdir m.disk.fs entries)
      (sort : QueueSort ((scanLoop entries m).quelist IN).msg sorted) :
      Performs m (.scan entries sorted) (scanDrop entries sorted m)
  | sendIn : Performs m .sendIn (sendNext IN m)
  | flushSend (q : Nat) (queue : 1 ≤ q ∧ q ≤ m.countq) : Performs m (.flushSend q) (sendNext q m)
  | expire : Performs m .expire (timerExpired m)
  | response (i : Ino) (code : Int) (now : Timeval) :
      Performs m (.response i code now) (checkResponse i code now (m.answer i code))

section Steps

variable {m m' : QueueState} {e : QueueEvent} {i : Ino} {q : Nat}

theorem queueStep_performs (happens : queueStep m e = some m') :
    m.exited = false ∧ Performs m e m' := by
  unfold queueStep at happens
  split at happens
  · cases happens
  · rename_i living
    refine ⟨by simpa using living, ?_⟩
    cases e with
    | arrive i =>
      simp only at happens
      split at happens
      · rename_i fresh
        obtain rfl := Option.some.inj happens
        exact .arrive i fresh
      · cases happens
    | signal isconnect =>
      obtain rfl := Option.some.inj happens
      exact .signal isconnect
    | scan entries sorted =>
      simp only at happens
      split at happens
      · rename_i listing
        obtain rfl := Option.some.inj happens
        exact .scan entries sorted listing.1 listing.2
      · cases happens
    | sendIn =>
      obtain rfl := Option.some.inj happens
      exact .sendIn
    | flushSend q =>
      simp only at happens
      split at happens
      · rename_i queue
        obtain rfl := Option.some.inj happens
        exact .flushSend q queue
      · cases happens
    | expire =>
      obtain rfl := Option.some.inj happens
      exact .expire
    | response i code now =>
      obtain rfl := Option.some.inj happens
      exact .response i code now

theorem queueStep_living (happens : queueStep m e = some m') : m.exited = false :=
  (queueStep_performs happens).1

theorem queueStep_arrive (living : m.exited = false) (fresh : ∀ l ∈ m.disk.fs, l.file ≠ i) :
    queueStep m (.arrive i) = some (dropFile i m) := by
  simp only [queueStep, living, Bool.false_eq_true, if_false, if_pos fresh]

theorem queueStep_flushSend (living : m.exited = false) (queue : 1 ≤ q ∧ q ≤ m.countq) :
    queueStep m (.flushSend q) = some (sendNext q m) := by
  simp only [queueStep, living, Bool.false_eq_true, if_false, if_pos queue]

theorem queueStep_response (living : m.exited = false) (i : Ino) (code : Int) (now : Timeval) :
    queueStep m (.response i code now) = some (checkResponse i code now (m.answer i code)) := by
  simp only [queueStep, living, Bool.false_eq_true, if_false]

end Steps

end IecUtils.Queue.Manager
