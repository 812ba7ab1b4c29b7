/- Module: IecUtils/Sender/Sockwrite
   source: main of sockwrite/sockwrite.c, sendfile and the main loop of scripts/asdusend
   digest: Copying stdin to the socket over any results of the calls, and which exits report a transfer that took place. -/

import IecUtils.Queue.Responses

set_option autoImplicit false
set_option relaxedAutoImplicit false

namespace IecUtils.Sender.Sockwrite

open IecUtils.Queue.Files (Ino)
open IecUtils.Queue.Responses (Line)

section Calls

def bufSize : Nat := 512
def responseSize : Nat := 32

/-- What `errno` holds behind a call that failed and its `perror`. -/
structure Errno where
  value : UInt8
  raised : value ≠ 0

/-- What `getopt` returns: -s, -d, or anything else. -/
inductive Gopt where
  | socketPath
  | debugLevel
  | other
  deriving DecidableEq

/-- What `write` does. SIGPIPE is neither caught nor ignored. -/
inductive Write where
  | wrote (m : Nat)
  | failed (errno : Errno)
  | killed

/-- One turn of the loop over stdin: what `read` returned and what `write` made of it. -/
structure Turn where
  got : List UInt8
  write : Write
  some : got ≠ []
  fits : got.length ≤ bufSize
  atMost : ∀ m, write = .wrote m → m ≤ got.length

/-- What `read` on the socket returns behind the `shutdown`. -/
inductive Response where
  | bytes (first : UInt8) (rest : List UInt8) (fits : rest.length < responseSize)
  | closed
  | failed (errno : Errno)

/-- The results of all calls. A call has failed where there is an `Errno`; behind the turns `read`
returns 0 or fails, and the loop ends either way. -/
structure World where
  options : List Gopt
  socket : Option Errno
  connect : Option Errno
  turns : List Turn
  response : Response

def Turn.written (t : Turn) : List UInt8 :=
  match t.write with
  | .wrote m => t.got.take m
  | _ => []

def Response.read : Response → List UInt8
  | .bytes first rest _ => first :: rest
  | _ => []

end Calls

section Program

inductive Exit where
  | exited (status : UInt8)
  | signalled (signal : UInt8)
  deriving DecidableEq

def sigsegv : UInt8 := 11
def sigpipe : UInt8 := 13

/-- What a run did: the bytes read from stdin, those written to the socket, those read from
it, and the end. -/
structure Run where
  taken : List UInt8
  written : List UInt8
  response : List UInt8
  exit : Exit
  deriving DecidableEq

/-- The loop over stdin: what was read, what was written, and the exit it ended with. -/
def copyLoop : List Turn → List UInt8 × List UInt8 × Option Exit
  | [] => ([], [], none)
  | t :: turns =>
      match t.write with
      | .failed errno => (t.got, t.written, some (.exited errno.value))
      | .killed => (t.got, t.written, some (.signalled sigpipe))
      | .wrote _ =>
          -- `m` is compared with 0 only
          let rest := copyLoop turns
          (t.got ++ rest.1, t.written ++ rest.2.1, rest.2.2)

/-- `status` behind the `switch`: it is 0 before. -/
def responseStatus : Response → UInt8
  | .bytes first _ _ =>
      if first = 60 then 0 else if first = 45 then 2 else if first = 94 then 3 else 0
  | .closed => 0
  | .failed errno => errno.value

/-- Behind the options: `strncpy` reads `sockpath`, which is NULL without -s. -/
def exchange (w : World) : Run :=
  match w.socket with
  | some errno => ⟨[], [], [], .exited errno.value⟩
  | none =>
      if .socketPath ∉ w.options then ⟨[], [], [], .signalled sigsegv⟩
      else
        match w.connect with
        | some errno => ⟨[], [], [], .exited errno.value⟩
        | none =>
            let (taken, written, ended) := copyLoop w.turns
            match ended with
            | some exit => ⟨taken, written, [], exit⟩
            | none => ⟨taken, written, w.response.read, .exited (responseStatus w.response)⟩

def main (w : World) : Run :=
  if .other ∈ w.options then ⟨[], [], [], .exited 4⟩ else exchange w

/-- `$?` behind the pipeline of `sendfile`. -/
def Exit.status : Exit → UInt8
  | .exited status => status
  | .signalled signal => 128 + signal

/-- What `asdusend` prints for a file name it reads. -/
def asdusendLines (inode : Ino) (exit : Exit) : List Line :=
  if printed : exit.status = 3 then [.confirm inode]
  else [.confirm inode, .final inode exit.status printed]

end Program

section Purpose

def Reliable (r : Run) : Prop :=
  r.exit = .exited 0 → r.written = r.taken ∧ r.response.head? = some 60

instance (r : Run) : Decidable (Reliable r) :=
  inferInstanceAs
    (Decidable (r.exit = .exited 0 → r.written = r.taken ∧ r.response.head? = some 60))

def Turn.Full (t : Turn) : Prop := t.write = .wrote t.got.length

def Turn.Stops (t : Turn) : Prop := ∀ m, t.write ≠ .wrote m

def Stopped (w : World) : Prop :=
  .other ∈ w.options ∨ .socketPath ∉ w.options ∨ w.socket ≠ none ∨ w.connect ≠ none ∨
    ∃ t ∈ w.turns, t.Stops

/-- The response cannot be read, or it is one of the two refusals. -/
def Refused (r : Response) : Prop :=
  (∃ errno, r = .failed errno) ∨ r.read.head? = some 45 ∨ r.read.head? = some 94

end Purpose

section Loop

theorem written_sublist (t : Turn) : t.written.Sublist t.got := by
  unfold Turn.written
  split
  · exact List.take_sublist _ _
  · exact List.nil_sublist _

theorem written_eq_got_iff (t : Turn) : t.written = t.got ↔ t.Full := by
  unfold Turn.Full Turn.written
  cases case : t.write with
  | wrote m =>
    have bound := t.atMost m case
    rw [List.take_eq_self_iff]
    constructor
    · intro long
      rw [Nat.le_antisymm bound long]
    · intro full
      injection full with full
      omega
  | failed errno => simp [Ne.symm t.some]
  | killed => simp [Ne.symm t.some]

theorem copyLoop_sublist (turns : List Turn) :
    (copyLoop turns).2.1.Sublist (copyLoop turns).1 := by
  induction turns with
  | nil => exact List.Sublist.refl _
  | cons t turns ih =>
    rw [copyLoop]
    cases t.write with
    | wrote m => exact (written_sublist t).append ih
    | failed errno => exact written_sublist t
    | killed => exact written_sublist t

theorem copyLoop_ended (turns : List Turn) :
    (copyLoop turns).2.2 = none ↔ ∀ t ∈ turns, ¬ t.Stops := by
  induction turns with
  | nil => simp [copyLoop]
  | cons t turns ih =>
    rw [copyLoop, List.forall_mem_cons]
    cases case : t.write with
    | wrote m =>
      have going : ¬ t.Stops := fun stops => stops m case
      simpa [going] using ih
    | failed errno =>
      have stops : t.Stops := fun m wrote => by simp [case] at wrote
      simp [stops]
    | killed =>
      have stops : t.Stops := fun m wrote => by simp [case] at wrote
      simp [stops]

theorem copyLoop_failed {turns : List Turn} {exit : Exit}
    (ended : (copyLoop turns).2.2 = some exit) : exit ≠ .exited 0 := by
  induction turns with
  | nil => simp [copyLoop] at ended
  | cons t turns ih =>
    rw [copyLoop] at ended
    cases case : t.write with
    | wrote m =>
      simp only [case] at ended
      exact ih ended
    | failed errno =>
      simp only [case, Option.some.injEq] at ended
      rw [← ended]
      simpa using errno.raised
    | killed =>
      simp only [case, Option.some.injEq] at ended
      rw [← ended]
      simp

theorem copyLoop_written {turns : List Turn} (goes : ∀ t ∈ turns, ¬ t.Stops) :
    (copyLoop turns).2.1 = (copyLoop turns).1 ↔ ∀ t ∈ turns, t.Full := by
  induction turns with
  | nil => simp [copyLoop]
  | cons t turns ih =>
    obtain ⟨first, later⟩ := List.forall_mem_cons.mp goes
    rw [copyLoop, List.forall_mem_cons]
    cases case : t.write with
    | wrote m =>
      dsimp only
      rw [← written_eq_got_iff, ← ih later]
      constructor
      · intro same
        -- both parts are sublists, so the lengths decide
        have lengths := congrArg List.length same
        rw [List.length_append, List.length_append] at lengths
        have head := (written_sublist t).length_le
        have tail := (copyLoop_sublist turns).length_le
        exact ⟨(written_sublist t).eq_of_length (by omega),
          (copyLoop_sublist turns).eq_of_length (by omega)⟩
      · rintro ⟨head, tail⟩
        rw [head, tail]
    | failed errno => exact absurd (fun m wrote => by simp [case] at wrote) first
    | killed => exact absurd (fun m wrote => by simp [case] at wrote) first

end Loop

section Exits

variable {w : World}

theorem main_stopped (stopped : Stopped w) : (main w).exit ≠ .exited 0 := by
  unfold main
  by_cases other : .other ∈ w.options
  · rw [if_pos other]
    simp
  rw [if_neg other, exchange]
  cases socket : w.socket with
  | some errno => simpa using errno.raised
  | none =>
    by_cases path : .socketPath ∉ w.options
    · simp [path]
    simp only [path, if_false]
    cases connect : w.connect with
    | some errno => simpa using errno.raised
    | none =>
      have stops : ∃ t ∈ w.turns, t.Stops := by
        simpa [Stopped, other, path, socket, connect] using stopped
      have ended : (copyLoop w.turns).2.2 ≠ none := by
        rw [Ne, copyLoop_ended]
        push Not
        exact stops
      obtain ⟨exit, ended⟩ := Option.ne_none_iff_exists'.mp ended
      simp only [ended]
      exact copyLoop_failed ended

theorem main_answered (goes : ¬ Stopped w) :
    main w = ⟨(copyLoop w.turns).1, (copyLoop w.turns).2.1, w.response.read,
      .exited (responseStatus w.response)⟩ := by
  simp only [Stopped, not_or, not_not, ne_eq] at goes
  obtain ⟨other, path, socket, connect, turns⟩ := goes
  have ended : (copyLoop w.turns).2.2 = none := by
    rw [copyLoop_ended]
    exact fun t member stops => turns ⟨t, member, stops⟩
  unfold main exchange
  rw [if_neg other, socket, if_neg (not_not.mpr path), connect]
  simp only [ended]

theorem responseStatus_eq_zero_iff (r : Response) : responseStatus r = 0 ↔ ¬ Refused r := by
  unfold Refused
  cases r with
  | bytes first rest fits =>
    simp only [responseStatus, Response.read, List.head?_cons, Option.some.injEq, reduceCtorEq,
      exists_false, false_or, not_or]
    by_cases confirmed : first = 60
    · subst confirmed
      decide
    · by_cases lost : first = 45
      · subst lost
        decide
      · by_cases last : first = 94
        · subst last
          decide
        · simp [confirmed, lost, last]
  | closed => simp [responseStatus, Response.read]
  | failed errno => simpa [responseStatus] using errno.raised

/-- The exit status is 0 for confirmed transfers only, if and only if the program stops at a
call that fails, or the response is a failure or a refusal, or no write was short and the
response confirms. -/
theorem reliable_iff (w : World) :
    Reliable (main w) ↔
      Stopped w ∨ Refused w.response ∨
        (∀ t ∈ w.turns, t.Full) ∧ w.response.read.head? = some 60 := by
  by_cases stopped : Stopped w
  · have failed := main_stopped stopped
    simp [Reliable, stopped, failed]
  · have goes : ∀ t ∈ w.turns, ¬ t.Stops := by
      intro t member stops
      exact stopped (.inr (.inr (.inr (.inr ⟨t, member, stops⟩))))
    rw [main_answered stopped]
    simp only [Reliable, Exit.exited.injEq, responseStatus_eq_zero_iff, stopped, false_or,
      copyLoop_written goes]
    tauto

/-- A peer that closes the connection without a word. -/
def silentPeer : World :=
  { options := [.debugLevel, .socketPath]
    socket := none
    connect := none
    turns := [⟨[48, 10], .wrote 2, by decide, by decide, by simp⟩]
    response := .closed }

/-- It gets the file for delivered. -/
theorem silentPeer_success :
    (main silentPeer).exit = .exited 0 ∧ (main silentPeer).response = [] ∧
      ¬ ∀ w, Reliable (main w) := by
  refine ⟨by decide, by decide, ?_⟩
  intro always
  exact absurd (always silentPeer) (by decide)

end Exits

section Replies

theorem asdusendLines_delivered (inode : Ino) (exit : Exit)
    (known : ∀ signal, exit = .signalled signal → signal < 65) :
    (∃ line ∈ asdusendLines inode exit, line.code = 0) ↔ exit = .exited 0 := by
  have zero : exit.status = 0 ↔ exit = .exited 0 := by
    cases exit with
    | exited status => simp [Exit.status]
    | signalled signal =>
      have small := UInt8.lt_iff_toNat_lt.mp (known signal rfl)
      simp only [Exit.status, reduceCtorEq, iff_false]
      intro wraps
      have sum := congrArg UInt8.toNat wraps
      simp only [UInt8.toNat_add, UInt8.reduceToNat] at sum small
      omega
  rw [← zero]
  unfold asdusendLines
  split
  · rename_i last
    simp [Line.code, last]
  · simp [Line.code, ← UInt8.toNat_inj]

end Replies

end IecUtils.Sender.Sockwrite
