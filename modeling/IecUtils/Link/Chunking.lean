/- Module: IecUtils/Link/Chunking
   source: stdin_read of ieclink/ieclink.c
   digest: The units and marks read do not depend on how read() splits the input, as long as nothing is read together with a mark before it. -/

import IecUtils.Link.HexLine

set_option autoImplicit false
set_option relaxedAutoImplicit false

namespace IecUtils.Link.Chunking

open IecUtils.Foundation.Lines
open IecUtils.Foundation.Transition
open IecUtils.Link.Frame
open IecUtils.Link.Ieclink
open IecUtils.Link.Stdin
open IecUtils.Link.HexLine

/-- What `stdin_read` makes of its input. -/
inductive Token where
  | unit (u : Asdu)
  | mark

def produced (x : Process) (line : List UInt8) : List Token :=
  ((takeLine x line).2.accepted.drop x.2.accepted.length).map .unit ++
    if line.head? = some 62 then [.mark] else []

def producedBy : Process → List (List UInt8) → List Token
  | _, [] => []
  | x, line :: lines => produced x line ++ producedBy (takeLine x line) lines

def lineTokens (line : List UInt8) : List Token :=
  if line.head? = some 62 then [.mark] else (unitOf line).toList.map .unit

/-- The input of a run, in the order in which it was read, and what came of it. -/
def readOf (es : List LinkEvent) : List UInt8 :=
  (observe linkStep turnsOf linkStart es).flatMap Batch.got

def tokensOf (es : List LinkEvent) : List Token :=
  (observe linkStep turnsOf linkStart es).flatMap fun b => producedBy b.before b.lines

/-- Nothing stands behind a mark in the buffer in which the mark is handled. -/
def Tidy (es : List LinkEvent) : Prop :=
  ∀ b ∈ observe linkStep turnsOf linkStart es, b.marked = true → b.behind = []

section Produced

variable {x : Process} {line : List UInt8}

theorem produced_eq (clear : x.2.asdubuf = noAsdu) : produced x line = lineTokens line := by
  unfold produced lineTokens
  by_cases mark : line.head? = some 62
  · rw [takeLine_mark clear mark, if_pos mark, if_pos mark]
    simp
  · rw [takeLine_data clear mark, if_neg mark, if_neg mark]
    cases unit : unitOf line with
    | none => simp
    | some u =>
      have accepted : (acceptAsdu x u).2.accepted = x.2.accepted ++ [u] := by
        unfold acceptAsdu
        simp only
        split <;> rfl
      simp [accepted]

theorem producedBy_eq (lines : List (List UInt8)) (clear : x.2.asdubuf = noAsdu) :
    producedBy x lines = lines.flatMap lineTokens := by
  induction lines generalizing x with
  | nil => rfl
  | cons line lines ih =>
    rw [producedBy, produced_eq clear, ih (takeLine_clear clear), List.flatMap_cons]

theorem tokensOf_eq {es : List LinkEvent} (reached : run linkStep linkStart es = some x) :
    tokensOf es =
      ((observe linkStep turnsOf linkStart es).flatMap Batch.lines).flatMap lineTokens := by
  have turns := observed_turns reached
  unfold tokensOf
  generalize observe linkStep turnsOf linkStart es = bs at turns
  induction bs with
  | nil => rfl
  | cons b bs ih =>
    obtain ⟨first, later⟩ := List.forall_mem_cons.mp turns
    rw [List.flatMap_cons, List.flatMap_cons, List.flatMap_append, producedBy_eq _ first.2, ih later]

end Produced

section Tidy

theorem cut_tidy {b : Batch} (tidy : b.behind = []) : cut 10 b.bytes = (b.lines, []) := by
  have whole := b.bytes_eq
  rw [tidy, List.append_nil] at whole
  have free : ∀ line ∈ b.lines, (10 : UInt8) ∉ line := by
    intro line member
    exact cut_lines_free b.bytes line ((upToMark_begins _).subset member)
  rw [whole]
  exact cut_join free

variable {lines : List (List UInt8)}

private theorem cut_turn {read : List UInt8} {done : List (List UInt8)} {b : Batch}
    (free : ∀ line ∈ lines, 10 ∉ line ∧ line.length ≤ 1000)
    (h : cut 10 read = (done, b.before.2.rbuf)) (turn : Turn b)
    (begins : read ++ b.got <+: join 10 lines) (tidy : b.marked = true → b.behind = []) :
    cut 10 (read ++ b.got) = (done ++ b.lines, b.after.2.rbuf) := by
  have parts : cut 10 (read ++ b.got) = (done ++ (cut 10 b.bytes).1, (cut 10 b.bytes).2) := by
    rw [cut_append, h]
    rfl
  cases mark : b.marked with
  | true => rw [parts, cut_tidy (tidy mark), turn.rbuf_marked mark]
  | false =>
    -- the rest begins a line of the stream, and so does not fill the buffer
    obtain ⟨later, whole⟩ := begins
    have short : (cut 10 b.bytes).2.length ≠ rbufSize := by
      have rest := cut_rest_begins (fun line member => (free line member).1) whole
      rw [parts] at rest
      rcases rest with none | ⟨line, member, starts⟩
      · rw [show (cut 10 b.bytes).2 = [] from none]
        decide
      · have fits : (cut 10 b.bytes).2.length ≤ line.length := starts.length_le
        have bound := (free line member).2
        rw [rbufSize]
        omega
    rw [parts, Batch.lines_unmarked mark, turn.rbuf_unmarked mark, if_neg short]

theorem tidy_lines {es : List LinkEvent} {x : Process}
    (free : ∀ line ∈ lines, 10 ∉ line ∧ line.length ≤ 1000)
    (reached : run linkStep linkStart es = some x) (begins : readOf es <+: join 10 lines)
    (tidy : Tidy es) :
    cut 10 (readOf es) =
      ((observe linkStep turnsOf linkStart es).flatMap Batch.lines, x.2.rbuf) := by
  refine input_history (J := fun rbuf past => past.flatMap Batch.got <+: join 10 lines →
    (∀ b ∈ past, b.marked = true → b.behind = []) →
      cut 10 (past.flatMap Batch.got) = (past.flatMap Batch.lines, rbuf)) ?_ ?_ reached begins tidy
  · intro b past turn _ before begins tidy
    rw [List.flatMap_append, List.flatMap_singleton] at begins ⊢
    rw [List.flatMap_append, List.flatMap_singleton]
    have earlier := before ((List.prefix_append _ _).trans begins)
      fun c member => tidy c (List.mem_append_left _ member)
    exact cut_turn free earlier turn begins (tidy b (List.mem_append_right _ List.mem_cons_self))
  · exact fun _ _ => rfl

end Tidy

/-- The octets of input that it takes at least to have a token. -/
def Token.cost : Token → Nat
  | .unit u => 2 * u.bytes.length + 1
  | .mark => 2

def costOf : List Token → Nat
  | [] => 0
  | t :: ts => t.cost + costOf ts

def lost (b : Batch) : List UInt8 := if b.marked then b.behind else []

section Cost

theorem costOf_append (as bs : List Token) : costOf (as ++ bs) = costOf as + costOf bs := by
  induction as with
  | nil => exact (Nat.zero_add _).symm
  | cons t ts ih => rw [List.cons_append, costOf, costOf, ih, Nat.add_assoc]

theorem costOf_line_le (line : List UInt8) : costOf (lineTokens line) ≤ line.length + 1 := by
  by_cases mark : line.head? = some 62
  · have some : line ≠ [] := by
      rintro rfl
      cases mark
    have positive := List.length_pos_iff.mpr some
    simp only [lineTokens, if_pos mark, costOf, Token.cost]
    omega
  · rw [lineTokens, if_neg mark]
    by_cases hex : HexString line ∧ line ≠ []
    · obtain ⟨u, unit, bytes⟩ := unitOf_hex hex.1 hex.2
      have size : u.bytes.length ≤ line.length / 2 := by
        rw [bytes, List.length_take, octetsOf_length]
        exact Nat.min_le_right _ _
      simp only [unit, costOf, Token.cost, Option.toList_some, List.map_cons, List.map_nil]
      omega
    · rw [unitOf_other hex]
      exact Nat.zero_le _

theorem costOf_line_eq {line : List UInt8} (plain : line = [62] ∨ WellFormed line) :
    costOf (lineTokens line) = line.length + 1 := by
  rcases plain with rfl | well
  · rfl
  · obtain ⟨u, unit, bytes⟩ := unitOf_hex well.hex well.nonempty
    have short := well.short
    have even := well.hex.even
    have size : u.bytes.length = line.length / 2 := by
      rw [bytes, List.length_take, octetsOf_length]
      exact Nat.min_eq_right short
    simp only [lineTokens, if_neg well.hex.not_mark, unit, costOf, Token.cost, Option.toList_some,
      List.map_cons, List.map_nil]
    omega

theorem costOf_lines_le (lines : List (List UInt8)) :
    costOf (lines.flatMap lineTokens) ≤ (join 10 lines).length := by
  induction lines with
  | nil => exact Nat.zero_le _
  | cons line lines ih =>
    have first := costOf_line_le line
    rw [join] at ih ⊢
    rw [List.flatMap_cons, List.flatMap_cons, costOf_append, List.length_append, List.length_append,
      List.length_singleton]
    omega

theorem costOf_lines_eq {lines : List (List UInt8)}
    (plain : ∀ line ∈ lines, line = [62] ∨ WellFormed line) :
    costOf (lines.flatMap lineTokens) = (join 10 lines).length := by
  induction lines with
  | nil => rfl
  | cons line lines ih =>
    obtain ⟨first, later⟩ := List.forall_mem_cons.mp plain
    have same := costOf_line_eq first
    have rest := ih later
    rw [join] at rest ⊢
    rw [List.flatMap_cons, List.flatMap_cons, costOf_append, List.length_append, List.length_append,
      List.length_singleton]
    omega

private theorem cost_turn {b : Batch} (turn : Turn b) :
    costOf (b.lines.flatMap lineTokens) + b.after.2.rbuf.length + (lost b).length ≤
      b.before.2.rbuf.length + b.got.length := by
  have lines := costOf_lines_le b.lines
  have bytes : b.bytes.length = b.before.2.rbuf.length + b.got.length := List.length_append
  rw [lost]
  cases mark : b.marked with
  | true =>
    have parts := congrArg List.length (b.bytes_eq)
    rw [List.length_append] at parts
    rw [turn.rbuf_marked mark, if_pos rfl, List.length_nil]
    omega
  | false =>
    have whole : join 10 (cut 10 b.bytes).1 ++ (cut 10 b.bytes).2 = b.bytes := join_cut b.bytes
    have parts := congrArg List.length whole
    rw [List.length_append, ← Batch.lines_unmarked mark] at parts
    have left : b.after.2.rbuf.length ≤ (cut 10 b.bytes).2.length := by
      rw [turn.rbuf_unmarked mark]
      split
      · exact Nat.zero_le _
      · exact Nat.le_refl _
    rw [if_neg Bool.false_ne_true, List.length_nil]
    omega

theorem cost_le {es : List LinkEvent} {x : Process}
    (reached : run linkStep linkStart es = some x) :
    costOf (tokensOf es) + x.2.rbuf.length +
      ((observe linkStep turnsOf linkStart es).flatMap lost).length ≤ (readOf es).length := by
  rw [tokensOf_eq reached]
  refine input_history (J := fun rbuf past =>
    costOf ((past.flatMap Batch.lines).flatMap lineTokens) + rbuf.length +
      (past.flatMap lost).length ≤ (past.flatMap Batch.got).length) ?_ (Nat.le_refl _) reached
  intro b past turn _ before
  have new := cost_turn turn
  simp only [List.flatMap_append, List.flatMap_singleton, costOf_append, List.length_append]
  omega

theorem tidy_of_lost {es : List LinkEvent}
    (nothing : (observe linkStep turnsOf linkStart es).flatMap lost = []) : Tidy es := by
  intro b member mark
  have none := List.flatMap_eq_nil_iff.mp nothing b member
  rw [lost, if_pos mark] at none
  exact none

end Cost

/-- In every run whose input is made of lines of at most 1000 octets: when nothing is read
together with a mark before it, what comes of the input is what comes of its lines one by
one, however it is split; and of marks and well-formed lines it comes only then. -/
theorem tidy_tokens {es : List LinkEvent} {x : Process} {lines : List (List UInt8)}
    (reached : run linkStep linkStart es = some x)
    (free : ∀ line ∈ lines, 10 ∉ line ∧ line.length ≤ 1000) (stream : readOf es = join 10 lines) :
    (Tidy es → tokensOf es = lines.flatMap lineTokens) ∧
      ((∀ line ∈ lines, line = [62] ∨ WellFormed line) →
        tokensOf es = lines.flatMap lineTokens → Tidy es) := by
  refine ⟨?_, ?_⟩
  · intro tidy
    have begins : readOf es <+: join 10 lines := by
      rw [stream]
    have cutUp := tidy_lines free reached begins tidy
    rw [stream, cut_join fun line member => (free line member).1] at cutUp
    rw [tokensOf_eq reached, ← (Prod.mk.inj cutUp).1]
  · intro plain same
    have paid := cost_le reached
    rw [same, stream, costOf_lines_eq plain] at paid
    apply tidy_of_lost
    apply List.length_eq_zero_iff.mp
    omega

def tidyRun : List LinkEvent :=
  [.recv ⟨uframeHdr .startcon, []⟩, .stdin [[54], [52, 10]], .recv ⟨sframeHdr 1, []⟩,
    .stdin [[62, 10]]]

theorem tidy_tokens_split : ∃ x, run linkStep linkStart tidyRun = some x ∧
    readOf tidyRun = join 10 [[54, 52], [62]] ∧ Tidy tidyRun ∧
    tokensOf tidyRun = [[54, 52], [62]].flatMap lineTokens := by
  have reached : run linkStep linkStart tidyRun = some _ := rfl
  have stream : readOf tidyRun = join 10 [[54, 52], [62]] := by decide +kernel
  have tidy : Tidy tidyRun := by
    unfold Tidy
    decide +kernel
  exact ⟨_, reached, stream, tidy, (tidy_tokens reached (by decide) stream).1 tidy⟩

def untidyRun : List LinkEvent :=
  [.recv ⟨uframeHdr .startcon, []⟩, .stdin [[54, 52, 10, 62, 10, 54, 53, 10, 62, 10]]]

theorem second_message_lost : ∃ x, run linkStep linkStart untidyRun = some x ∧
    readOf untidyRun = join 10 [[54, 52], [62], [54, 53], [62]] ∧ x.2.rbuf = [] ∧
    tokensOf untidyRun = [[54, 52], [62]].flatMap lineTokens ∧
    tokensOf untidyRun ≠ [[54, 52], [62], [54, 53], [62]].flatMap lineTokens := by
  have reached : run linkStep linkStart untidyRun = some _ := rfl
  refine ⟨_, reached, by decide +kernel, rfl, rfl, ?_⟩
  intro same
  have shorter := congrArg List.length same
  exact absurd shorter (by decide +kernel)

end IecUtils.Link.Chunking
