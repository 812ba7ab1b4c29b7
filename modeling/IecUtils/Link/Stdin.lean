/- Module: IecUtils/Link/Stdin
   source: stdin_read of ieclink/ieclink.c
   digest: What stdin_read makes of its reads, line by line: which lines it handles, what it accepts and what it drops. -/

import IecUtils.Foundation.Lines
import IecUtils.Link.Reception

set_option autoImplicit false
set_option relaxedAutoImplicit false

namespace IecUtils.Link.Stdin

open IecUtils.Foundation.Lines
open IecUtils.Foundation.SequenceNumber
open IecUtils.Foundation.Transition
open IecUtils.Link.Frame
open IecUtils.Link.Session
open IecUtils.Link.Ieclink
open IecUtils.Link.Confirm
open IecUtils.Link.Reception

def upToMark : List (List UInt8) → List (List UInt8)
  | [] => []
  | line :: lines => if line.head? = some 62 then [line] else line :: upToMark lines

def marked (lines : List (List UInt8)) : Bool := lines.any fun line => line.head? = some 62

def takeLine (x : Process) (line : List UInt8) : Process :=
  let x := handleLine x line
  if line.head? = some 62 then (x.1, { x.2 with rbuf := [], endmsg := true })
  else (x.1, { x.2 with asdubuf := noAsdu })

def unitOf (line : List UInt8) : Option Asdu :=
  if (decodeLine noAsdu line).2 ∧ (decodeLine noAsdu line).1.bytes ≠ [] then
    some (decodeLine noAsdu line).1
  else none

/-- One turn of the outer loop of `stdin_read`: the process when `read` returned `got`,
the process at the end of the turn, and whether the loop goes on to another `read`. -/
structure Batch where
  before : Process
  got : List UInt8
  after : Process
  goesOn : Bool

def readBatches : List (List UInt8) → Process → List Batch
  | [], _ => []
  | chunk :: chunks, x =>
      let got := chunk.take (rbufSize - x.2.rbuf.length)
      if got = [] then []
      else
        let bytes := x.2.rbuf ++ got
        match lineLoop bytes.length bytes x with
        | (none, y) => [⟨x, got, y, false⟩]
        | (some left, y) =>
            let y : Process := (y.1, { y.2 with rbuf := if left.length = rbufSize then [] else left })
            if y.2.curlistsize = limlistsize then [⟨x, got, y, false⟩]
            else ⟨x, got, y, true⟩ :: readBatches chunks y

/-- The buffer, the lines of it that are handled, and what is left behind the last of
them: the next read follows it, unless a mark has come. -/
def Batch.bytes (b : Batch) : List UInt8 := b.before.2.rbuf ++ b.got

def Batch.lines (b : Batch) : List (List UInt8) := upToMark (cut 10 b.bytes).1

def Batch.marked (b : Batch) : Bool := Stdin.marked (cut 10 b.bytes).1

def Batch.behind (b : Batch) : List UInt8 := b.bytes.drop (join 10 b.lines).length

def Batch.result (b : Batch) : Process :=
  let x := b.lines.foldl takeLine b.before
  if b.marked then x
  else
    let left := (cut 10 b.bytes).2
    (x.1, { x.2 with rbuf := if left.length = rbufSize then [] else left })

structure Turn (b : Batch) : Prop where
  got : b.got ≠ []
  fits : b.bytes.length ≤ rbufSize
  after : b.after = b.result
  goesOn : b.goesOn = true ↔ b.marked = false ∧ b.after.2.curlistsize ≠ limlistsize

inductive Turns : Process → List Batch → Process → Prop where
  | none (x : Process) : Turns x [] x
  | last {b : Batch} : Turn b → b.goesOn = false → Turns b.before [b] b.after
  | next {b : Batch} {bs : List Batch} {y : Process} : Turn b → b.goesOn = true →
      Turns b.after bs y → Turns b.before (b :: bs) y

section Loop

variable {x : Process}

private theorem head_line {pbuf : List UInt8} (complete : 10 ∈ pbuf) :
    pbuf.head? = some 62 ↔ (pbuf.takeWhile (· ≠ 10)).head? = some 62 := by
  cases pbuf with
  | nil => cases complete
  | cons b rest =>
    by_cases newline : b = 10
    · subst newline
      simp
    · simp [newline]

theorem lineLoop_cut (fuel : Nat) (pbuf : List UInt8) (x : Process) (enough : pbuf.length ≤ fuel) :
    lineLoop fuel pbuf x =
      (if marked (cut 10 pbuf).1 then none else some (cut 10 pbuf).2,
        (upToMark (cut 10 pbuf).1).foldl takeLine x) := by
  induction fuel generalizing pbuf x with
  | zero =>
    obtain rfl := List.length_eq_zero_iff.mp (Nat.le_zero.mp enough)
    rfl
  | succ fuel ih =>
    unfold lineLoop
    by_cases complete : 10 ∈ pbuf
    · rw [if_pos complete, cut_some complete]
      simp only [head_line complete]
      have shorter : ((pbuf.dropWhile (· ≠ 10)).drop 1).length ≤ fuel := by
        have all : (pbuf.dropWhile (· ≠ 10)).length ≤ pbuf.length :=
          (List.dropWhile_sublist _).length_le
        rw [List.length_drop]
        omega
      generalize pbuf.takeWhile (· ≠ 10) = line
      generalize (pbuf.dropWhile (· ≠ 10)).drop 1 = rest at shorter ⊢
      split
      · rename_i mark
        simp [marked, upToMark, takeLine, mark]
      · rename_i data
        rw [ih _ _ shorter]
        simp [marked, upToMark, takeLine, data]
    · rw [if_neg complete, cut_none complete]
      rfl

theorem Batch.result_marked {b : Batch} (mark : b.marked = true) :
    b.result = b.lines.foldl takeLine b.before := by
  rw [Batch.result, mark]
  rfl

theorem Batch.result_unmarked {b : Batch} (mark : b.marked = false) :
    b.result = ((b.lines.foldl takeLine b.before).1,
      { (b.lines.foldl takeLine b.before).2 with
        rbuf := if (cut 10 b.bytes).2.length = rbufSize then [] else (cut 10 b.bytes).2 }) := by
  rw [Batch.result, mark]
  rfl

theorem stdinRead_turns (chunks : List (List UInt8)) (x : Process) :
    Turns x (readBatches chunks x) (stdinRead chunks x) := by
  induction chunks generalizing x with
  | nil => exact .none x
  | cons chunk chunks ih =>
    unfold readBatches stdinRead
    simp only
    split
    · exact .none x
    · rename_i some
      have fits : (x.2.rbuf ++ chunk.take (rbufSize - x.2.rbuf.length)).length ≤ rbufSize := by
        have room : chunk.take (rbufSize - x.2.rbuf.length) ≠ [] := some
        have few := List.length_take_le (rbufSize - x.2.rbuf.length) chunk
        have positive := List.length_pos_iff.mpr room
        rw [List.length_append]
        omega
      rw [lineLoop_cut _ _ _ (Nat.le_refl _)]
      generalize chunk.take (rbufSize - x.2.rbuf.length) = got at some fits ⊢
      cases mark : marked (cut 10 (x.2.rbuf ++ got)).1 with
      | true =>
        simp only [if_true]
        refine Turns.last (b := ⟨x, got, _, false⟩) ⟨some, fits, ?_, ?_⟩ rfl
        · exact (Batch.result_marked (b := ⟨x, got, x, false⟩) mark).symm
        · simp [Batch.marked, Batch.bytes, mark]
      | false =>
        simp only [Bool.false_eq_true, if_false]
        split
        · rename_i full
          refine Turns.last (b := ⟨x, got, _, false⟩) ⟨some, fits, ?_, ?_⟩ rfl
          · exact (Batch.result_unmarked (b := ⟨x, got, x, false⟩) mark).symm
          · simpa [Batch.marked, Batch.bytes, mark] using full
        · rename_i more
          refine Turns.next (b := ⟨x, got, _, true⟩) ⟨some, fits, ?_, ?_⟩ rfl (ih _)
          · exact (Batch.result_unmarked (b := ⟨x, got, x, false⟩) mark).symm
          · simpa [Batch.marked, Batch.bytes, mark] using more

end Loop

section Line

variable {x : Process} {line : List UInt8}

theorem decodeLine_mark (mark : line.head? = some 62) : decodeLine noAsdu line = (noAsdu, false) := by
  cases line with
  | nil => cases mark
  | cons b rest =>
    obtain rfl := Option.some.inj mark
    cases rest with
    | nil => rfl
    | cons c rest =>
      have none : hexDigit 62 = Option.none := by decide
      rw [decodeLine, none]

theorem unitOf_mark (mark : line.head? = some 62) : unitOf line = none := by
  simp [unitOf, decodeLine_mark mark]

theorem takeLine_mark (clear : x.2.asdubuf = noAsdu) (mark : line.head? = some 62) :
    takeLine x line = (x.1, { x.2 with rbuf := [], endmsg := true }) := by
  simp [takeLine, handleLine, clear, decodeLine_mark mark, mark]

theorem takeLine_data (clear : x.2.asdubuf = noAsdu) (data : line.head? ≠ some 62) :
    takeLine x line = (unitOf line).elim x (acceptAsdu x) := by
  have kept : { x.2 with asdubuf := noAsdu } = x.2 := by rw [← clear]
  unfold takeLine handleLine unitOf
  rw [if_neg data, clear]
  simp only
  split
  · simp only [Option.elim_some]
    unfold acceptAsdu
    simp only
    split
    · simp only [iecAsduSend, Prod.mk.injEq, true_and]
      rw [← clear]
    · simp only [listAppend, Prod.mk.injEq, true_and]
      rw [← clear]
  · simp only [Option.elim_none, kept]

theorem takeLine_clear (clear : x.2.asdubuf = noAsdu) : (takeLine x line).2.asdubuf = noAsdu := by
  by_cases mark : line.head? = some 62
  · rw [takeLine_mark clear mark]
    exact clear
  · rw [takeLine, if_neg mark]

theorem foldl_clear (lines : List (List UInt8)) (clear : x.2.asdubuf = noAsdu) :
    (lines.foldl takeLine x).2.asdubuf = noAsdu := by
  induction lines generalizing x with
  | nil => exact clear
  | cons line lines ih => exact ih (takeLine_clear clear)

theorem Turn.clear {b : Batch} (turn : Turn b) (clear : b.before.2.asdubuf = noAsdu) :
    b.after.2.asdubuf = noAsdu := by
  rw [turn.after]
  cases mark : b.marked with
  | true =>
    rw [Batch.result_marked mark]
    exact foldl_clear b.lines clear
  | false =>
    rw [Batch.result_unmarked mark]
    exact foldl_clear b.lines clear

theorem Turns.history {J : Process → List Batch → Prop}
    (keeps : ∀ b past, Turn b → J b.before past → J b.after (past ++ [b])) {y : Process}
    {bs : List Batch} (turns : Turns x bs y) (past : List Batch) (h : J x past) :
    J y (past ++ bs) := by
  induction turns generalizing past with
  | none x =>
    rw [List.append_nil]
    exact h
  | @last b turn _ => exact keeps b past turn h
  | @next b bs y turn _ _ ih =>
    have rest := ih _ (keeps b past turn h)
    rw [List.append_assoc] at rest
    exact rest

theorem Turns.each {I : Process → Prop} (keeps : ∀ b, Turn b → I b.before → I b.after)
    {y : Process} {bs : List Batch} (turns : Turns x bs y) (h : I x) :
    I y ∧ ∀ b ∈ bs, Turn b ∧ I b.before := by
  refine turns.history (J := fun z past => I z ∧ ∀ b ∈ past, Turn b ∧ I b.before) ?_ []
    ⟨h, fun b member => absurd member List.not_mem_nil⟩
  intro b past turn before
  refine ⟨keeps b turn before.1, ?_⟩
  intro c member
  rcases List.mem_append.mp member with old | new
  · exact before.2 c old
  · obtain rfl := List.mem_singleton.mp new
    exact ⟨turn, before.1⟩

end Line

section Lines

theorem upToMark_unmarked {lines : List (List UInt8)} (none : marked lines = false) :
    upToMark lines = lines := by
  induction lines with
  | nil => rfl
  | cons line lines ih =>
    simp only [marked, List.any_cons, Bool.or_eq_false_iff, decide_eq_false_iff_not] at none
    rw [upToMark, if_neg none.1, ih none.2]

theorem upToMark_begins (lines : List (List UInt8)) : upToMark lines <+: lines := by
  induction lines with
  | nil => exact List.nil_prefix
  | cons line lines ih =>
    rw [upToMark]
    split
    · exact ⟨lines, rfl⟩
    · exact List.cons_prefix_cons.mpr ⟨rfl, ih⟩

theorem upToMark_append (pre : List (List UInt8)) (line : List UInt8) :
    upToMark (pre ++ [line]) = if marked pre then upToMark pre else upToMark pre ++ [line] := by
  induction pre with
  | nil =>
    rw [List.nil_append, upToMark, upToMark]
    split <;> rfl
  | cons l pre ih =>
    by_cases mark : l.head? = some 62
    · simp [upToMark, marked, mark]
    · have same : marked (l :: pre) = marked pre := by simp [marked, mark]
      rw [List.cons_append, upToMark, upToMark, if_neg mark, if_neg mark, ih, same]
      split <;> rfl

theorem Batch.bytes_eq (b : Batch) : b.bytes = join 10 b.lines ++ b.behind := by
  obtain ⟨later, parts⟩ := upToMark_begins (cut 10 b.bytes).1
  have whole : join 10 (cut 10 b.bytes).1 ++ (cut 10 b.bytes).2 = b.bytes := join_cut b.bytes
  rw [← parts, join, List.flatMap_append, List.append_assoc] at whole
  have begins : join 10 b.lines <+: b.bytes := ⟨_, whole⟩
  exact (List.prefix_iff_eq_append.mp begins).symm

private theorem foldl_marked {lines : List (List UInt8)} (x : Process)
    (mark : marked lines = true) : ((upToMark lines).foldl takeLine x).2.rbuf = [] := by
  induction lines generalizing x with
  | nil => cases mark
  | cons line lines ih =>
    rw [upToMark]
    split
    · rename_i here
      rw [List.foldl_cons, List.foldl_nil, takeLine, if_pos here]
    · rename_i other
      simp only [marked, List.any_cons, other, decide_false, Bool.false_or] at mark
      exact ih (takeLine x line) mark

theorem Turn.rbuf_marked {b : Batch} (turn : Turn b) (mark : b.marked = true) : b.after.2.rbuf = [] := by
  rw [turn.after, Batch.result_marked mark]
  exact foldl_marked b.before mark

theorem Turn.rbuf_unmarked {b : Batch} (turn : Turn b) (mark : b.marked = false) :
    b.after.2.rbuf = if (cut 10 b.bytes).2.length = rbufSize then [] else (cut 10 b.bytes).2 := by
  rw [turn.after, Batch.result_unmarked mark]

theorem Batch.lines_unmarked {b : Batch} (mark : b.marked = false) : b.lines = (cut 10 b.bytes).1 :=
  upToMark_unmarked mark

end Lines

def Batch.units (b : Batch) : List Asdu := b.lines.filterMap unitOf

section Units

variable {x y : Process}

private theorem accept_frame (us : List Asdu) (rbuf : List UInt8) (endmsg : Bool) :
    us.foldl acceptAsdu (x.1, { x.2 with rbuf := rbuf, endmsg := endmsg }) =
      ((us.foldl acceptAsdu x).1,
        { (us.foldl acceptAsdu x).2 with rbuf := rbuf, endmsg := endmsg }) := by
  induction us generalizing x with
  | nil => rfl
  | cons u us ih =>
    have one : acceptAsdu (x.1, { x.2 with rbuf := rbuf, endmsg := endmsg }) u =
        ((acceptAsdu x u).1, { (acceptAsdu x u).2 with rbuf := rbuf, endmsg := endmsg }) := by
      unfold acceptAsdu
      simp only
      split <;> rfl
    rw [List.foldl_cons, one, ih]
    rfl

private theorem acceptAsdu_buffers (x : Process) (u : Asdu) :
    (acceptAsdu x u).2.rbuf = x.2.rbuf ∧ (acceptAsdu x u).2.asdubuf = x.2.asdubuf ∧
      (acceptAsdu x u).2.endmsg = x.2.endmsg := by
  unfold acceptAsdu
  simp only
  split <;> exact ⟨rfl, rfl, rfl⟩

private theorem foldl_takeLine (lines : List (List UInt8)) (clear : x.2.asdubuf = noAsdu) :
    ∃ rbuf, (upToMark lines).foldl takeLine x =
      ((((upToMark lines).filterMap unitOf).foldl acceptAsdu x).1,
        { (((upToMark lines).filterMap unitOf).foldl acceptAsdu x).2 with
          rbuf := rbuf
          endmsg := x.2.endmsg || marked lines }) := by
  induction lines generalizing x with
  | nil => exact ⟨x.2.rbuf, by simp [upToMark, marked]⟩
  | cons line lines ih =>
    by_cases mark : line.head? = some 62
    · refine ⟨[], ?_⟩
      simp [upToMark, marked, mark, unitOf_mark mark, takeLine_mark clear mark]
    · have same : marked (line :: lines) = marked lines := by simp [marked, mark]
      rw [upToMark, if_neg mark, List.foldl_cons, takeLine_data clear mark, same]
      cases unit : unitOf line with
      | none =>
        rw [List.filterMap_cons_none unit]
        exact ih clear
      | some u =>
        obtain ⟨_, asdubuf, endmsg⟩ := acceptAsdu_buffers x u
        obtain ⟨rbuf, rest⟩ := ih (asdubuf.trans clear)
        refine ⟨rbuf, ?_⟩
        rw [List.filterMap_cons_some unit, List.foldl_cons, ← endmsg]
        exact rest

theorem Turn.units {b : Batch} (turn : Turn b) (clear : b.before.2.asdubuf = noAsdu) :
    ∃ rbuf, b.after = ((b.units.foldl acceptAsdu b.before).1,
      { (b.units.foldl acceptAsdu b.before).2 with
        rbuf := rbuf
        endmsg := b.before.2.endmsg || b.marked }) := by
  obtain ⟨rbuf, lines⟩ := foldl_takeLine (cut 10 b.bytes).1 clear
  rw [turn.after]
  cases mark : b.marked with
  | true =>
    rw [Batch.result_marked mark, ← mark]
    exact ⟨rbuf, lines⟩
  | false =>
    rw [Batch.result_unmarked mark, ← mark]
    have handled : b.lines.foldl takeLine b.before = _ := lines
    refine ⟨if (cut 10 b.bytes).2.length = rbufSize then [] else (cut 10 b.bytes).2, ?_⟩
    rw [handled]
    rfl

theorem Turns.units {bs : List Batch} (turns : Turns x bs y) (clear : x.2.asdubuf = noAsdu) :
    ∃ rbuf, y = (((bs.flatMap Batch.units).foldl acceptAsdu x).1,
      { ((bs.flatMap Batch.units).foldl acceptAsdu x).2 with
        rbuf := rbuf
        endmsg := x.2.endmsg || bs.any Batch.marked }) := by
  induction turns with
  | none x => exact ⟨x.2.rbuf, by simp⟩
  | last turn _ =>
    obtain ⟨rbuf, same⟩ := turn.units clear
    exact ⟨rbuf, by simpa using same⟩
  | @next b bs y turn _ _ ih =>
    obtain ⟨rbuf, first⟩ := turn.units clear
    obtain ⟨rbuf', rest⟩ := ih (turn.clear clear)
    refine ⟨rbuf', ?_⟩
    rw [rest, first, accept_frame]
    simp [Bool.or_assoc]

/-- Units go into the window as long as it has room, and into the list after that. -/
structure Fed (x : Process) (us passed listed : List Asdu) (y : Process) : Prop where
  split : us = passed ++ listed
  count : passed.length = min us.length (iecsockCanQueue x.1)
  drained : Drained y.1
  va : y.1.va = x.1.va
  vs : wrapDist 32767 y.1.vs x.1.va = wrapDist 32767 x.1.vs x.1.va + passed.length
  linked : y.2.linked = x.2.linked
  carried : y.2.carried = x.2.carried
  accepted : y.2.accepted = x.2.accepted ++ us
  sent : y.2.sent = x.2.sent ++ passed
  asdulist : y.2.asdulist = if x.2.linked then x.2.asdulist ++ listed else x.2.asdulist
  curlistsize : y.2.curlistsize = x.2.curlistsize + listed.length

private theorem acceptAsdu_listed (full : iecsockCanQueue x.1 = 0) (u : Asdu) :
    acceptAsdu x u = (x.1, listAppend { x.2 with accepted := x.2.accepted ++ [u] } u) := by
  unfold acceptAsdu
  simp only [full, ne_eq, not_true_eq_false, if_false]

private theorem acceptAsdu_sent (room : iecsockCanQueue x.1 ≠ 0) (u : Asdu) :
    acceptAsdu x u = iecAsduSend (x.1, { x.2 with accepted := x.2.accepted ++ [u] }) u := by
  unfold acceptAsdu
  simp only [ne_eq, room, not_false_eq_true, if_true]

private theorem accept_fed (us : List Asdu) (h : Drained x.1) :
    ∃ passed listed, Fed x us passed listed (us.foldl acceptAsdu x) := by
  induction us generalizing x with
  | nil => exact ⟨[], [], rfl, by simp, h, rfl, rfl, rfl, rfl, by simp, by simp, by simp, rfl⟩
  | cons u us ih =>
    have room := h.window.canQueue (by decide)
    rw [List.foldl_cons]
    by_cases free : iecsockCanQueue x.1 = 0
    · -- the window stays full, so everything is listed
      have one := acceptAsdu_listed free u
      obtain ⟨passed, listed, fed⟩ := ih (x := acceptAsdu x u) (by rw [one]; exact h)
      have none : passed = [] := by
        have count := fed.count
        rw [one, free, Nat.min_zero] at count
        exact List.length_eq_zero_iff.mp count
      subst none
      rw [one] at fed ⊢
      refine ⟨[], u :: listed, by rw [fed.split]; rfl, by rw [free]; simp, fed.drained, fed.va,
        fed.vs, fed.linked, fed.carried, ?_, fed.sent, ?_, ?_⟩
      · rw [fed.accepted, listAppend, List.append_assoc, List.singleton_append]
      · rw [fed.asdulist]
        simp only [listAppend]
        split
        · rw [List.append_assoc, List.singleton_append]
        · rfl
      · rw [fed.curlistsize, List.length_cons]
        simp only [listAppend]
        omega
    · have one := acceptAsdu_sent free u
      obtain ⟨sent, sentVa, next⟩ := iecAsduSend_drained
        (x := (x.1, { x.2 with accepted := x.2.accepted ++ [u] })) h free u
      rw [← one] at sent sentVa next
      simp only at sentVa next
      obtain ⟨passed, listed, fed⟩ := ih sent
      have left := sent.window.canQueue (by decide)
      have count := fed.count
      have vs := fed.vs
      rw [sentVa] at left vs
      refine ⟨u :: passed, listed, by rw [fed.split]; rfl, ?_, fed.drained, fed.va.trans sentVa, ?_,
        ?_, ?_, ?_, ?_, ?_, ?_⟩
      · rw [List.length_cons, count, left, next, List.length_cons]
        omega
      · rw [vs, next, List.length_cons]
        omega
      · rw [fed.linked, one]
        rfl
      · rw [fed.carried, one]
        rfl
      · rw [fed.accepted, one, iecAsduSend, List.append_assoc, List.singleton_append]
      · rw [fed.sent, one, iecAsduSend, List.append_assoc, List.singleton_append]
      · rw [fed.asdulist, one]
        rfl
      · rw [fed.curlistsize, one]
        rfl

theorem Turn.fed {b : Batch} (turn : Turn b) (clear : b.before.2.asdubuf = noAsdu)
    (h : Drained b.before.1) : ∃ passed listed, Fed b.before b.units passed listed b.after := by
  obtain ⟨passed, listed, fed⟩ := accept_fed b.units h
  obtain ⟨rbuf, same⟩ := turn.units clear
  rw [same]
  exact ⟨passed, listed, { fed with }⟩

theorem Turns.fed {bs : List Batch} (turns : Turns x bs y) (clear : x.2.asdubuf = noAsdu)
    (h : Drained x.1) : ∃ passed listed, Fed x (bs.flatMap Batch.units) passed listed y := by
  obtain ⟨passed, listed, fed⟩ := accept_fed (bs.flatMap Batch.units) h
  obtain ⟨rbuf, same⟩ := turns.units clear
  rw [same]
  exact ⟨passed, listed, { fed with }⟩

end Units

section Runs

variable {x y : Process}

/-- The turns of the loop of `stdin_read` that an event makes. -/
def turnsOf (x : Process) : LinkEvent → List Batch
  | .stdin chunks => readBatches chunks (x.1, { x.2 with user := .idle })
  | _ => []

/-- Between the calls of `stdin_read` nothing is in `asdubuf`. -/
def Clear (x : Process) : Prop := Kept x ∧ x.2.asdubuf = noAsdu

private theorem linkStep_buffers {e : LinkEvent} (h : Drained x.1)
    (other : ∀ chunks, e ≠ .stdin chunks) (happens : linkStep x e = some y) :
    y.2.rbuf = x.2.rbuf ∧ y.2.asdubuf = x.2.asdubuf := by
  have received {f : Apdu} {z : Process} (r : Received x f z) :
      z.2.rbuf = x.2.rbuf ∧ z.2.asdubuf = x.2.asdubuf := by
    cases r with
    | woken _ kicked _ same =>
      rw [same]
      exact ⟨kicked.rbuf, kicked.asdubuf⟩
    | moved _ _ _ _ same =>
      rw [same]
      exact ⟨rfl, rfl⟩
    | other _ _ same =>
      rw [same]
      exact ⟨rfl, rfl⟩
  cases linkStep_outcome happens with
  | connect _ => exact ⟨rfl, rfl⟩
  | @stdin chunks _ _ => exact absurd rfl (other chunks)
  | accepted _ handled => exact received (handled_received h handled)
  | rejected _ _ handled =>
    have before := received (handled_received h handled)
    exact before
  | badHeader _ => exact ⟨rfl, rfl⟩
  | t1 _ => exact ⟨rfl, rfl⟩
  | t2 _ => exact ⟨rfl, rfl⟩
  | t3 _ => exact ⟨rfl, rfl⟩
  | error _ => exact ⟨rfl, rfl⟩

/-- What every turn keeps of the read buffer and of all turns before it holds in every
run. -/
theorem linkStep_history {J : List UInt8 → List Batch → Prop}
    (keeps : ∀ b past, Turn b → b.before.2.asdubuf = noAsdu → J b.before.2.rbuf past →
      J b.after.2.rbuf (past ++ [b])) {e : LinkEvent} (past : List Batch)
    (h : Clear x ∧ J x.2.rbuf past) (happens : linkStep x e = some y) :
    Clear y ∧ J y.2.rbuf (past ++ turnsOf x e) := by
  obtain ⟨⟨kept, clear⟩, before⟩ := h
  have next := linkStep_kept kept happens
  by_cases call : ∃ chunks, e = .stdin chunks
  · obtain ⟨chunks, rfl⟩ := call
    cases linkStep_outcome happens with
    | stdin _ _ =>
      have turns := stdinRead_turns chunks (x.1, { x.2 with user := .idle })
      obtain ⟨done, history⟩ := turns.history
        (J := fun z past => z.2.asdubuf = noAsdu ∧ J z.2.rbuf past)
        (fun b past turn h => ⟨turn.clear h.1, keeps b past turn h.1 h.2⟩) past ⟨clear, before⟩
      exact ⟨⟨next, done⟩, history⟩
  · have other : ∀ chunks, e ≠ .stdin chunks := fun chunks same => call ⟨chunks, same⟩
    obtain ⟨rbuf, asdubuf⟩ := linkStep_buffers kept.1 other happens
    have none : turnsOf x e = [] := by
      cases e with
      | stdin chunks => exact absurd rfl (other chunks)
      | _ => rfl
    refine ⟨⟨next, asdubuf.trans clear⟩, ?_⟩
    rw [none, List.append_nil, rbuf]
    exact before

theorem linkStep_clear {e : LinkEvent} (h : Clear x) (happens : linkStep x e = some y) :
    Clear y :=
  (linkStep_history (J := fun _ _ => True) (fun _ _ _ _ _ => trivial) [] ⟨h, trivial⟩ happens).1

theorem stdin_fed (h : Clear x) (chunks : List (List UInt8)) : ∃ passed listed,
    Fed x ((turnsOf x (.stdin chunks)).flatMap Batch.units) passed listed
      (stdinRead chunks (x.1, { x.2 with user := .idle })) := by
  obtain ⟨passed, listed, fed⟩ :=
    (stdinRead_turns chunks (x.1, { x.2 with user := .idle })).fed h.2 h.1.1
  exact ⟨passed, listed, { fed with }⟩

theorem stdin_endmsg (h : Clear x) (chunks : List (List UInt8)) :
    (stdinRead chunks (x.1, { x.2 with user := .idle })).2.endmsg =
      (x.2.endmsg || (turnsOf x (.stdin chunks)).any Batch.marked) := by
  obtain ⟨rbuf, same⟩ :=
    (stdinRead_turns chunks (x.1, { x.2 with user := .idle })).units h.2
  rw [same]
  rfl

theorem linkStart_clear : Clear linkStart := ⟨linkStart_kept, rfl⟩

theorem input_history {J : List UInt8 → List Batch → Prop}
    (keeps : ∀ b past, Turn b → b.before.2.asdubuf = noAsdu → J b.before.2.rbuf past →
      J b.after.2.rbuf (past ++ [b])) (start : J [] []) {es : List LinkEvent}
    (reached : run linkStep linkStart es = some x) :
    J x.2.rbuf (observe linkStep turnsOf linkStart es) :=
  (run_history (J := fun z past => Clear z ∧ J z.2.rbuf past)
    (fun _ _ _ past h happens => linkStep_history keeps past h happens) ⟨linkStart_clear, start⟩ reached).2

theorem observed_turns {es : List LinkEvent} (reached : run linkStep linkStart es = some x) :
    ∀ b ∈ observe linkStep turnsOf linkStart es, Turn b ∧ b.before.2.asdubuf = noAsdu := by
  refine input_history (J := fun _ past => ∀ b ∈ past, Turn b ∧ b.before.2.asdubuf = noAsdu) ?_
    (fun b member => absurd member List.not_mem_nil) reached
  intro b past turn clear before c member
  rcases List.mem_append.mp member with old | new
  · exact before c old
  · obtain rfl := List.mem_singleton.mp new
    exact ⟨turn, clear⟩

end Runs

end IecUtils.Link.Stdin
