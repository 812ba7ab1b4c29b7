/- Module: IecUtils/Queue/Forwarding
   source: main of quemngr/syslogclient/syslogclient.c
   digest: What the client makes of the lines it reads: sent, waiting for the server, or displaced. -/

import IecUtils.Foundation.Transition
import IecUtils.Queue.Syslog

set_option autoImplicit false
set_option relaxedAutoImplicit false

namespace IecUtils.Queue.Forwarding

open IecUtils.Foundation.Ring
open IecUtils.Foundation.Transition
open IecUtils.Queue.Syslog

section Program

/-- One turn of the loop over `fgets`: the line, whether `connectnb` succeeds, and which writes
to the socket do, in order; a write that takes a part of the text counts as done. -/
structure Round where
  buf : Text
  connects : Bool
  writes : Nat → Bool

def Round.message (r : Round) : Text := r.buf.takeWhile (· ≠ 0)

/-- The variable `store`, and the messages that were written to the server. -/
structure Client where
  store : Ringbuf
  sent : List Text

def Client.init : Client := ⟨.init, []⟩

/-- The string that `readtail` returns. -/
def tailText (st : Ringbuf) : Option Text := ((readtail st).bind id).bind (st.strings[·]?)

/-- The loop over the stored messages, from the write with number `i` on: what was written, the
number of the next write, and the buffer. -/
def sendLoop (writes : Nat → Bool) : Nat → Nat → Ringbuf → Option (List Text × Nat × Ringbuf)
  | 0, i, st => some ([], i, st)
  | fuel + 1, i, st =>
      if st.size > 0 then
        (tailText st).bind fun message =>
          if writes i then
            (deltail st).bind fun result =>
              (sendLoop writes fuel (i + 1) result.2).map fun (texts, j, st) =>
                (message :: texts, j, st)
          else some ([], i + 1, st)
      else some ([], i, st)

def sendStored (writes : Nat → Bool) (st : Ringbuf) : Option (List Text × Nat × Ringbuf) :=
  sendLoop writes st.size.toNat 0 st

def clientStep (c : Client) (r : Round) : Option Client :=
  if !r.connects then (pushmsg c.store r.message).map fun st => { c with store := st }
  else
    (sendStored r.writes c.store).bind fun (texts, i, st) =>
      if r.writes i then some ⟨st, c.sent ++ texts ++ [r.message]⟩
      else (pushmsg st r.message).map fun st => ⟨st, c.sent ++ texts⟩

def pushedOn (c : Client) (r : Round) : Option Ringbuf :=
  if !r.connects then some c.store
  else (sendStored r.writes c.store).bind fun (_, i, st) => if r.writes i then none else some st

end Program

section Purpose

/-- What has become of the lines that were read. -/
structure Outbox where
  sent : List Text
  displaced : List Text
  waiting : List Text
  deriving DecidableEq

def Outbox.empty : Outbox := ⟨[], [], []⟩

def capacity : Nat := sizeringbuf - 1

def Outbox.keep (o : Outbox) (message : Text) : Outbox :=
  if o.waiting.length < capacity then { o with waiting := o.waiting ++ [message] }
  else
    { o with
      displaced := o.displaced ++ o.waiting.take 1
      waiting := o.waiting.drop 1 ++ [message] }

def successes (writes : Nat → Bool) : Nat → Nat → Nat
  | 0, _ => 0
  | n + 1, i => if writes i then successes writes n (i + 1) + 1 else 0

def Outbox.flush (o : Outbox) (k : Nat) : Outbox :=
  { o with sent := o.sent ++ o.waiting.take k, waiting := o.waiting.drop k }

/-- The write that follows those of the stored messages, also behind a failure. -/
def Outbox.lastWrite (o : Outbox) (writes : Nat → Bool) : Nat :=
  let k := successes writes o.waiting.length 0
  if k < o.waiting.length then k + 1 else k

/-- What waits is written, oldest first, up to a failure; the line is written next, and waits if
that fails. -/
def Outbox.round (o : Outbox) (r : Round) : Outbox :=
  if !r.connects then o.keep r.message
  else
    let p := o.flush (successes r.writes o.waiting.length 0)
    if r.writes (o.lastWrite r.writes) then { p with sent := p.sent ++ [r.message] }
    else p.keep r.message

def outbox (rs : List Round) : Outbox := rs.foldl Outbox.round .empty

def Round.Steady (r : Round) : Prop := ∀ i j, i ≤ j → r.writes i = false → r.writes j = false

end Purpose

section Refinement

variable {st : Ringbuf} {q : Fifo Text}

theorem tailText_eq (rep : Represents st q) : tailText st = q.live.head? := by
  have behaves := rep.behaves
  rw [tailText, behaves.read, Option.bind_some]
  exact behaves.read_text

theorem successes_le (writes : Nat → Bool) (n i : Nat) : successes writes n i ≤ n := by
  induction n generalizing i with
  | zero => exact Nat.le_refl _
  | succ n ih =>
    have later := ih (i + 1)
    unfold successes
    split
    · omega
    · exact Nat.zero_le _

theorem sendLoop_eq (writes : Nat → Bool) (fuel i : Nat) (rep : Represents st q)
    (enough : q.live.length = fuel) :
    ∃ (st' : Ringbuf) (q' : Fifo Text),
      sendLoop writes fuel i st = some (q.live.take (successes writes fuel i),
        i + (if successes writes fuel i < fuel then successes writes fuel i + 1
          else successes writes fuel i), st') ∧
      Represents st' q' ∧ q'.live = q.live.drop (successes writes fuel i) := by
  induction fuel generalizing i st q with
  | zero => exact ⟨st, q, by simp [sendLoop, successes], rep, by simp [successes]⟩
  | succ fuel ih =>
    obtain ⟨m, live, parts⟩ := List.exists_cons_of_length_eq_add_one enough
    have filled : st.size > 0 := by
      rw [rep.size_eq, enough]
      omega
    have message : tailText st = some m := by rw [tailText_eq rep, parts, List.head?_cons]
    rw [sendLoop, if_pos filled, message, Option.bind_some]
    by_cases done : writes i = true
    · obtain ⟨st', result, rep'⟩ := represents_deltail rep
      have rest : q.pop.live = live := by rw [Fifo.pop, parts]; rfl
      have shorter : q.pop.live.length = fuel := by
        rw [rest]
        rw [parts, List.length_cons] at enough
        omega
      obtain ⟨st'', q'', looped, rep'', left⟩ := ih (i + 1) rep' shorter
      -- the next write is one further on in either case
      have next : i + 1 + (if successes writes fuel (i + 1) < fuel then
            successes writes fuel (i + 1) + 1 else successes writes fuel (i + 1)) =
          i + (if successes writes fuel (i + 1) + 1 < fuel + 1 then
            successes writes fuel (i + 1) + 1 + 1 else successes writes fuel (i + 1) + 1) := by
        split <;> split <;> omega
      refine ⟨st'', q'', ?_, rep'', ?_⟩
      · rw [if_pos done, result, Option.bind_some, looped, Option.map_some, successes, if_pos done,
          rest, parts, List.take_succ_cons, next]
      · rw [left, rest, successes, if_pos done, parts, List.drop_succ_cons]
    · refine ⟨st, q, ?_, rep, ?_⟩
      · rw [if_neg done, successes, if_neg done]
        simp
      · rw [successes, if_neg done, List.drop_zero]

theorem sendStored_eq {o : Outbox} (rep : Represents st q) (waits : q.live = o.waiting)
    (writes : Nat → Bool) :
    ∃ (st' : Ringbuf) (q' : Fifo Text),
      sendStored writes st = some (o.waiting.take (successes writes o.waiting.length 0),
        o.lastWrite writes, st') ∧
      Represents st' q' ∧ q'.live = (o.flush (successes writes o.waiting.length 0)).waiting := by
  have size : st.size.toNat = o.waiting.length := by
    rw [rep.size_eq, waits]
    exact Int.toNat_natCast _
  obtain ⟨st', q', looped, rep', left⟩ :=
    sendLoop_eq writes o.waiting.length 0 rep (congrArg List.length waits)
  rw [waits, Nat.zero_add] at looped
  rw [waits] at left
  exact ⟨st', q', by rw [sendStored, size, looped]; rfl, rep', left⟩

/-- The client does what the outbox says. -/
structure Serves (c : Client) (o : Outbox) : Prop where
  queue : ∃ q : Fifo Text, Represents c.store q ∧ q.live = o.waiting
  sent : c.sent = o.sent

theorem serves_init : Serves .init .empty := ⟨⟨.empty, represents_init, rfl⟩, rfl⟩

theorem serves_push {sent : List Text} {o : Outbox} (rep : Represents st q)
    (waits : q.live = o.waiting) (same : sent = o.sent) {message : Text}
    (within : ¬ Overrun st (.pushmsg message)) :
    ∃ st', pushmsg st message = some st' ∧ Serves ⟨st', sent⟩ (o.keep message) := by
  obtain ⟨st', stored, rep'⟩ := represents_pushmsg rep within
  refine ⟨st', stored, ⟨_, rep', ?_⟩, ?_⟩
  · unfold Outbox.keep Fifo.push capacity
    rw [waits]
    split
    · rfl
    · rw [Fifo.pop, waits]
  · unfold Outbox.keep
    split
    · exact same
    · exact same

/-- A turn whose push, if there is one, does not find the oldest message of a full buffer in the
last slot. -/
def Within (c : Client) (r : Round) : Prop :=
  ∀ st, pushedOn c r = some st → ¬ Overrun st (.pushmsg r.message)

instance (c : Client) (r : Round) : Decidable (Within c r) :=
  have (st : Ringbuf) : Decidable (Overrun st (.pushmsg r.message)) :=
    inferInstanceAs (Decidable (st.head = 48 ∧ st.tail = 49))
  inferInstanceAs (Decidable (∀ st ∈ pushedOn c r, ¬ Overrun st (.pushmsg r.message)))

theorem serves_step {c c' : Client} {o : Outbox} {r : Round} (serves : Serves c o)
    (within : Within c r) (happens : clientStep c r = some c') : Serves c' (o.round r) := by
  obtain ⟨⟨q, rep, waits⟩, sent⟩ := serves
  unfold clientStep at happens
  unfold Within pushedOn at within
  unfold Outbox.round
  by_cases refused : (!r.connects) = true
  · rw [if_pos refused] at happens within ⊢
    obtain ⟨st', stored, kept⟩ := serves_push rep waits sent (within c.store rfl)
    rw [stored] at happens
    obtain rfl := Option.some.inj happens
    exact kept
  · rw [if_neg refused] at happens within ⊢
    obtain ⟨st', q', looped, rep', left⟩ := sendStored_eq rep waits r.writes
    have written : c.sent ++ o.waiting.take (successes r.writes o.waiting.length 0) =
        (o.flush (successes r.writes o.waiting.length 0)).sent := by
      rw [sent]
      rfl
    rw [looped, Option.bind_some] at happens within
    dsimp only at happens within ⊢
    by_cases last : r.writes (o.lastWrite r.writes) = true
    · rw [if_pos last] at happens ⊢
      obtain rfl := Option.some.inj happens
      exact ⟨⟨q', rep', left⟩, congrArg (· ++ [r.message]) written⟩
    · rw [if_neg last] at happens within ⊢
      obtain ⟨st'', stored, kept⟩ := serves_push rep' left written (within st' rfl)
      rw [stored] at happens
      obtain rfl := Option.some.inj happens
      exact kept

theorem clientStep_some {c : Client} {o : Outbox} {r : Round} (serves : Serves c o)
    (within : Within c r) : ∃ c', clientStep c r = some c' := by
  obtain ⟨⟨q, rep, waits⟩, _⟩ := serves
  unfold Within pushedOn at within
  unfold clientStep
  by_cases refused : (!r.connects) = true
  · rw [if_pos refused] at within ⊢
    obtain ⟨st', stored, _⟩ := represents_pushmsg rep (within c.store rfl)
    exact ⟨_, by rw [stored]; rfl⟩
  · rw [if_neg refused] at within ⊢
    obtain ⟨st', q', looped, rep', _⟩ := sendStored_eq rep waits r.writes
    rw [looped, Option.bind_some] at within ⊢
    dsimp only at within ⊢
    by_cases last : r.writes (o.lastWrite r.writes) = true
    · exact ⟨_, if_pos last⟩
    · rw [if_neg last] at within ⊢
      obtain ⟨st'', stored, _⟩ := represents_pushmsg rep' (within st' rfl)
      exact ⟨_, by rw [stored]; rfl⟩

end Refinement

section Order

variable {o : Outbox} {r : Round}

def Conserved (o : Outbox) (read : List Text) : Prop :=
  (o.sent ++ o.displaced ++ o.waiting).Perm read

/-- What waits was read last, and what was sent is in the order in which it was read. -/
def InOrder (o : Outbox) (read : List Text) : Prop :=
  ∃ past, read = past ++ o.waiting ∧ o.sent.Sublist past ∧ past.Perm (o.sent ++ o.displaced)

theorem waiting_keep (bound : o.waiting.length ≤ capacity) (message : Text) :
    (o.keep message).waiting.length ≤ capacity := by
  unfold Outbox.keep
  split
  · rw [List.length_append, List.length_singleton]
    omega
  · rw [List.length_append, List.length_drop, List.length_singleton]
    have some : 0 < capacity := by decide
    omega

theorem conserved_keep {read : List Text} (h : Conserved o read) (message : Text) :
    Conserved (o.keep message) (read ++ [message]) := by
  unfold Conserved Outbox.keep at *
  split
  · rw [← List.append_assoc]
    exact h.append_right _
  · dsimp only
    have parts : o.sent ++ (o.displaced ++ o.waiting.take 1) ++ (o.waiting.drop 1 ++ [message]) =
        o.sent ++ o.displaced ++ (o.waiting.take 1 ++ o.waiting.drop 1) ++ [message] := by
      simp only [List.append_assoc]
    rw [parts, List.take_append_drop]
    exact h.append_right _

theorem inOrder_keep {read : List Text} (h : InOrder o read) (message : Text) :
    InOrder (o.keep message) (read ++ [message]) := by
  obtain ⟨past, rfl, sublist, perm⟩ := h
  unfold Outbox.keep
  split
  · exact ⟨past, by rw [List.append_assoc], sublist, perm⟩
  · refine ⟨past ++ o.waiting.take 1, ?_, sublist.trans (List.sublist_append_left _ _), ?_⟩
    · dsimp only
      rw [List.append_assoc past (o.waiting.take 1), ← List.append_assoc (o.waiting.take 1),
        List.take_append_drop, List.append_assoc]
    · rw [← List.append_assoc]
      exact perm.append_right _

theorem conserved_flush {read : List Text} (h : Conserved o read) (k : Nat) :
    Conserved (o.flush k) read := by
  have moved : (o.waiting.take k ++ (o.displaced ++ o.waiting.drop k)).Perm
      (o.displaced ++ o.waiting) := by
    rw [← List.append_assoc]
    refine (List.perm_append_comm.append_right _).trans ?_
    rw [List.append_assoc, List.take_append_drop]
  unfold Conserved Outbox.flush at *
  simp only [List.append_assoc] at h ⊢
  exact (moved.append_left _).trans h

theorem inOrder_flush {read : List Text} (h : InOrder o read) (k : Nat) :
    InOrder (o.flush k) read := by
  obtain ⟨past, rfl, sublist, perm⟩ := h
  refine ⟨past ++ o.waiting.take k, ?_, sublist.append (List.Sublist.refl _), ?_⟩
  · rw [List.append_assoc]
    exact congrArg (past ++ ·) (List.take_append_drop k _).symm
  · have moved : (o.sent ++ o.displaced ++ o.waiting.take k).Perm
        (o.sent ++ o.waiting.take k ++ o.displaced) := by
      simp only [List.append_assoc]
      exact List.perm_append_comm.append_left _
    exact (perm.append_right _).trans moved

theorem failed_at (writes : Nat → Bool) (n i : Nat) (short : successes writes n i < n) :
    writes (i + successes writes n i) = false := by
  induction n generalizing i with
  | zero => exact absurd short (Nat.not_lt_zero _)
  | succ n ih =>
    by_cases done : writes i = true
    · rw [successes, if_pos done] at short ⊢
      have later := ih (i + 1) (by omega)
      rwa [Nat.add_right_comm] at later
    · rw [successes, if_neg done]
      exact (Bool.not_eq_true _).mp done

theorem round_cases (o : Outbox) (r : Round) :
    o.round r = o.keep r.message ∨
      (∃ k, o.round r = (o.flush k).keep r.message) ∨
        ∃ k, (r.Steady → k = o.waiting.length) ∧
          o.round r = { o.flush k with sent := (o.flush k).sent ++ [r.message] } := by
  unfold Outbox.round
  split
  · exact .inl rfl
  · dsimp only
    split
    · rename_i sent
      refine .inr (.inr ⟨_, ?_, rfl⟩)
      intro steady
      by_contra some
      have short : successes r.writes o.waiting.length 0 < o.waiting.length :=
        Nat.lt_of_le_of_ne (successes_le _ _ _) some
      have failed := failed_at r.writes _ 0 short
      rw [Nat.zero_add] at failed
      rw [Outbox.lastWrite, if_pos short, steady _ _ (Nat.le_succ _) failed] at sent
      cases sent
    · exact .inr (.inl ⟨_, rfl⟩)

theorem waiting_flush (bound : o.waiting.length ≤ capacity) (k : Nat) :
    (o.flush k).waiting.length ≤ capacity := by
  change (o.waiting.drop k).length ≤ capacity
  rw [List.length_drop]
  omega

theorem waiting_round (bound : o.waiting.length ≤ capacity) (r : Round) :
    (o.round r).waiting.length ≤ capacity := by
  rcases round_cases o r with same | ⟨k, same⟩ | ⟨k, _, same⟩
  · rw [same]
    exact waiting_keep bound _
  · rw [same]
    exact waiting_keep (waiting_flush bound k) _
  · rw [same]
    exact waiting_flush bound k

theorem conserved_round {read : List Text} (h : Conserved o read) (r : Round) :
    Conserved (o.round r) (read ++ [r.message]) := by
  rcases round_cases o r with same | ⟨k, same⟩ | ⟨k, _, same⟩
  · rw [same]
    exact conserved_keep h _
  · rw [same]
    exact conserved_keep (conserved_flush h k) _
  · rw [same]
    have moved (a b c : List Text) (m : Text) : (a ++ [m] ++ b ++ c).Perm (a ++ b ++ c ++ [m]) := by
      simp only [List.append_assoc]
      refine List.Perm.append_left a ?_
      rw [← List.append_assoc b]
      exact List.perm_append_comm
    exact (moved _ _ _ _).trans ((conserved_flush h k).append_right _)

theorem inOrder_round {read : List Text} (h : InOrder o read) (steady : r.Steady) :
    InOrder (o.round r) (read ++ [r.message]) := by
  rcases round_cases o r with same | ⟨k, same⟩ | ⟨k, whole, same⟩
  · rw [same]
    exact inOrder_keep h _
  · rw [same]
    exact inOrder_keep (inOrder_flush h k) _
  · have none : (o.flush k).waiting = [] := by
      rw [whole steady]
      exact List.drop_length
    obtain ⟨past, parts, sublist, perm⟩ := inOrder_flush h k
    rw [none, List.append_nil] at parts
    subst parts
    rw [same]
    refine ⟨read ++ [r.message], ?_, sublist.append (List.Sublist.refl _), ?_⟩
    · dsimp only
      rw [none, List.append_nil]
    · have moved (a b : List Text) (m : Text) : (a ++ b ++ [m]).Perm (a ++ [m] ++ b) := by
        simp only [List.append_assoc]
        exact List.perm_append_comm.append_left a
      exact (perm.append_right _).trans (moved _ _ _)

theorem round_sends (o : Outbox) (connects : r.connects = true) (all : ∀ i, r.writes i = true) :
    (o.round r).waiting = [] := by
  have whole : successes r.writes o.waiting.length 0 = o.waiting.length := by
    by_contra some
    have failed := failed_at r.writes _ 0 (Nat.lt_of_le_of_ne (successes_le _ _ _) some)
    rw [all] at failed
    cases failed
  rw [Outbox.round, if_neg (by simp [connects])]
  dsimp only
  rw [if_pos (all _), whole]
  exact List.drop_length

end Order

section Runs

theorem run_serves {c : Client} {o : Outbox} (rs : List Round) (serves : Serves c o)
    (within : Guarded clientStep Within c rs) :
    ∃ c', run clientStep c rs = some c' ∧ Serves c' (rs.foldl Outbox.round o) := by
  induction rs generalizing c o with
  | nil => exact ⟨c, rfl, serves⟩
  | cons r rs ih =>
    obtain ⟨d, happens⟩ := clientStep_some serves within.1
    obtain ⟨c', reached, serves'⟩ := ih (serves_step serves within.1 happens) (within.2 d happens)
    exact ⟨c', by rw [run_cons, happens, Option.bind_some, reached], serves'⟩

theorem outbox_concat (rs : List Round) (r : Round) :
    outbox (rs ++ [r]) = (outbox rs).round r := by
  rw [outbox, List.foldl_append]
  rfl

theorem outbox_conserved (rs : List Round) :
    Conserved (outbox rs) (rs.map Round.message) ∧ (outbox rs).waiting.length ≤ capacity := by
  induction rs using List.reverseRecOn with
  | nil => exact ⟨List.Perm.refl _, Nat.zero_le _⟩
  | append_singleton rs r ih =>
    rw [outbox_concat, List.map_append]
    exact ⟨conserved_round ih.1 r, waiting_round ih.2 r⟩

theorem outbox_inOrder {rs : List Round} (steady : ∀ r ∈ rs, r.Steady) :
    InOrder (outbox rs) (rs.map Round.message) := by
  induction rs using List.reverseRecOn with
  | nil => exact ⟨[], rfl, List.Sublist.refl _, List.Perm.refl _⟩
  | append_singleton rs r ih =>
    have earlier := ih fun s member => steady s (List.mem_append_left _ member)
    rw [outbox_concat, List.map_append]
    exact inOrder_round earlier (steady r (List.mem_append_right _ List.mem_cons_self))

/-- In every run in which no push finds the buffer full with its oldest message in the last slot,
the client never leaves its array, and every line that was read is sent, waiting or displaced,
once; what waits is at most 49 messages, and nothing behind a turn whose writes all succeed. If a
connection on which a write failed takes no other one, then what waits was read last, and what
was sent is in the order in which it was read. -/
theorem messages_forwarded {rs : List Round} (within : Guarded clientStep Within .init rs) :
    ∃ c, run clientStep .init rs = some c ∧ Serves c (outbox rs) ∧
      Conserved (outbox rs) (rs.map Round.message) ∧ (outbox rs).waiting.length ≤ capacity ∧
      (∀ r, rs.getLast? = some r → r.connects = true → (∀ i, r.writes i = true) →
        (outbox rs).waiting = []) ∧
      ((∀ r ∈ rs, r.Steady) → InOrder (outbox rs) (rs.map Round.message)) := by
  obtain ⟨c, reached, serves⟩ := run_serves rs serves_init within
  obtain ⟨conserved, bound⟩ := outbox_conserved rs
  refine ⟨c, reached, serves, conserved, bound, ?_, outbox_inOrder⟩
  intro r last connects all
  rcases List.eq_nil_or_concat' rs with rfl | ⟨before, r', rfl⟩
  · rfl
  · rw [List.getLast?_concat] at last
    obtain rfl := Option.some.inj last
    rw [outbox_concat]
    exact round_sends _ connects all

/-- The server is away, then takes one message and fails, then takes all. -/
def fourLines : List Round :=
  [⟨[65, 10], false, fun _ => false⟩, ⟨[66, 10], true, fun i => i = 0⟩,
    ⟨[67, 10], true, fun i => i < 1⟩, ⟨[68, 10], true, fun _ => true⟩]

example : outbox fourLines = ⟨[[65, 10], [66, 10], [67, 10], [68, 10]], [], []⟩ := by decide

theorem messages_forwarded_fourLines : ∃ c, run clientStep .init fourLines = some c ∧
    Serves c (outbox fourLines) ∧ Conserved (outbox fourLines) (fourLines.map Round.message) ∧
      (outbox fourLines).waiting.length ≤ capacity ∧
      (∀ r, fourLines.getLast? = some r → r.connects = true → (∀ i, r.writes i = true) →
        (outbox fourLines).waiting = []) ∧
      ((∀ r ∈ fourLines, r.Steady) →
        InOrder (outbox fourLines) (fourLines.map Round.message)) := by
  have within : Guarded clientStep Within .init fourLines := by decide +kernel
  exact messages_forwarded within

end Runs

end IecUtils.Queue.Forwarding
