/- Module: IecUtils/Link/Overflow
   source: asdulist, asdulistlast and curlistsize in stdin_read and iec_kick_callback of ieclink/ieclink.c
   digest: When the overflow list is a queue without loss, and when its counter holds standard input back. -/

import IecUtils.Link.Stdin

set_option autoImplicit false
set_option relaxedAutoImplicit false

namespace IecUtils.Link.Overflow

open IecUtils.Foundation.Transition
open IecUtils.Link.Frame
open IecUtils.Link.Session
open IecUtils.Link.Ieclink
open IecUtils.Link.Confirm
open IecUtils.Link.Reception
open IecUtils.Link.Stdin

/-- `asdulistlast` addresses the end of the list, and the units passed to `iec_asdu_send`
followed by those in the list are all units of the connection in order. -/
structure InOrder (p : Program) : Prop where
  linked : p.linked = true
  order : p.sent ++ p.asdulist = p.carried ++ p.accepted

/-- The list is not emptied for a message that has ended, and no unit is read past units
that wait in the list. -/
def Orderly (x : Process) : LinkEvent → Prop
  | .recv f => Acknowledges x.1 f → x.2.endmsg = true →
      x.2.asdulist = [] ∨ defaultK < x.2.asdulist.length
  | .stdin chunks => x.2.asdulist = [] ∨ iecsockCanQueue x.1 = 0 ∨
      ∀ b ∈ turnsOf x (.stdin chunks), b.units = []
  | _ => True

instance (x : Process) (e : LinkEvent) : Decidable (Orderly x e) :=
  match e with
  | .recv _ => inferInstanceAs (Decidable (_ → _ → _ ∨ _))
  | .stdin _ => inferInstanceAs (Decidable (_ ∨ _ ∨ ∀ b ∈ _, _))
  | .badHeader | .t1 | .t2 | .t3 | .error | .connect => isTrue trivial

section Step

variable {x y : Process}

private theorem InOrder.received {f : Apdu} (h : InOrder x.2)
    (orderly : Orderly x (.recv f)) (r : Received x f y) : InOrder y.2 := by
  cases r with
  | @woken t sent rest z _ acks kicked _ same =>
    rw [same]
    have order : x.2.sent ++ (sent ++ rest) = x.2.carried ++ x.2.accepted := by
      rw [← kicked.split]
      exact h.order
    refine ⟨?_, ?_⟩
    · change z.2.linked = true
      rw [kicked.linked]
      by_cases emptied : rest = []
      · rw [if_pos emptied]
        cases ended : x.2.endmsg with
        | false => rfl
        | true =>
          rcases orderly acks ended with none | many
          · simp [none, h.linked]
          · have few := kicked.few
            have all : x.2.asdulist = sent ++ rest := kicked.split
            rw [all, emptied, List.append_nil, defaultK] at many
            omega
      · rw [if_neg emptied]
        exact h.linked
    · change z.2.sent ++ z.2.asdulist = z.2.carried ++ z.2.accepted
      rw [kicked.passed, kicked.asdulist, kicked.carried, kicked.accepted, List.append_assoc]
      exact order
  | moved _ _ _ _ same =>
    rw [same]
    exact ⟨h.linked, h.order⟩
  | other _ _ same =>
    rw [same]
    exact ⟨h.linked, h.order⟩

private theorem InOrder.fed {us passed listed : List Asdu} (h : InOrder x.2)
    (fed : Fed x us passed listed y)
    (free : x.2.asdulist = [] ∨ iecsockCanQueue x.1 = 0 ∨ us = []) : InOrder y.2 := by
  have order := h.order
  refine ⟨fed.linked.trans h.linked, ?_⟩
  rw [fed.sent, fed.carried, fed.accepted, fed.asdulist, h.linked, if_pos rfl]
  rcases free with empty | full | none
  · -- the window takes what it can, the list the rest
    rw [empty, List.append_nil] at order
    rw [empty, List.nil_append, List.append_assoc, ← fed.split, order, List.append_assoc]
  · have nothing : passed = [] := by
      have count := fed.count
      rw [full, Nat.min_zero] at count
      exact List.length_eq_zero_iff.mp count
    have all := fed.split
    rw [nothing, List.nil_append] at all
    rw [nothing, List.append_nil, all, ← List.append_assoc, order, List.append_assoc]
  · obtain ⟨rfl, rfl⟩ := List.append_eq_nil_iff.mp (fed.split.symm.trans none)
    rw [none, List.append_nil, List.append_nil, List.append_nil]
    exact order

private theorem inOrder_step (x : Process) (e : LinkEvent) (y : Process)
    (h : Clear x ∧ InOrder x.2) (orderly : Orderly x e) (happens : linkStep x e = some y) :
    Clear y ∧ InOrder y.2 := by
  obtain ⟨clear, order⟩ := h
  refine ⟨linkStep_clear clear happens, ?_⟩
  have quiet := order.order
  have linked := order.linked
  cases linkStep_outcome happens with
  | connect _ => exact ⟨linked, by simp [connectLink]⟩
  | @stdin chunks _ _ =>
    obtain ⟨passed, listed, fed⟩ := stdin_fed clear chunks
    exact order.fed fed (orderly.imp_right fun rest => rest.imp_right List.flatMap_eq_nil_iff.mpr)
  | accepted _ handled => exact order.received orderly (handled_received clear.1.1 handled)
  | rejected _ _ handled =>
    have before := order.received orderly (handled_received clear.1.1 handled)
    exact ⟨before.linked, before.order⟩
  | badHeader _ => exact ⟨linked, quiet⟩
  | t1 _ => exact ⟨linked, quiet⟩
  | t2 _ => exact ⟨linked, quiet⟩
  | t3 _ => exact ⟨linked, quiet⟩
  | error _ => exact ⟨linked, quiet⟩

end Step

/-- In every run of which the steps are orderly the overflow list is a queue without
loss. -/
theorem orderly_inOrder {es : List LinkEvent} {x : Process}
    (orderly : Guarded linkStep Orderly linkStart es)
    (reached : run linkStep linkStart es = some x) :
    x.2.linked = true ∧ x.2.sent ++ x.2.asdulist = x.2.carried ++ x.2.accepted := by
  have start : InOrder linkStart.2 := ⟨rfl, rfl⟩
  obtain ⟨_, order⟩ := guarded_invariant inOrder_step ⟨linkStart_clear, start⟩ orderly reached
  exact ⟨order.linked, order.order⟩

section Runs

set_option maxRecDepth 4000

/-- `count` copies of the line `64`. -/
def dataLines (count : Nat) : List UInt8 := (List.replicate count [54, 52, 10]).flatten

/-- Thirteen units before the end of the message is read, so that the list is emptied
while more is to come. -/
def overflowRun : List LinkEvent :=
  [.recv ⟨uframeHdr .startcon, []⟩, .stdin [dataLines 13], .recv ⟨sframeHdr 12, []⟩]

theorem orderly_inOrder_overflow : ∃ x, run linkStep linkStart overflowRun = some x ∧
    x.2.asdulist = [] ∧ x.2.sent.length = 13 ∧ x.2.linked = true ∧
    x.2.sent ++ x.2.asdulist = x.2.carried ++ x.2.accepted := by
  have reached : run linkStep linkStart overflowRun = some _ := rfl
  refine ⟨_, reached, rfl, rfl, ?_⟩
  exact orderly_inOrder (by decide) reached

/-- The thirteenth unit waits for the window when the message ends, and a unit of the next
message is appended to what is no list any more. -/
def lossRun : List LinkEvent :=
  [.recv ⟨uframeHdr .startcon, []⟩, .stdin [message 13], .recv ⟨sframeHdr 12, []⟩,
    .stdin [message 12]]

theorem lossRun_loses : ∃ x, run linkStep linkStart lossRun = some x ∧ x.2.linked = false ∧
    x.2.sent ++ x.2.asdulist ≠ x.2.carried ++ x.2.accepted := by
  have reached : run linkStep linkStart lossRun = some _ := rfl
  refine ⟨_, reached, rfl, ?_⟩
  intro same
  exact absurd (congrArg List.length same) (by decide)

end Runs

/-- The counter of the list is its length. -/
structure Counted (p : Program) : Prop where
  linked : p.linked = true
  count : p.curlistsize = p.asdulist.length

/-- The list is not drained, and no buffer holds more units than the window and the list
up to its limit have room for. -/
def Slack (x : Process) : LinkEvent → Prop
  | .recv f => Acknowledges x.1 f → x.2.asdulist = []
  | .stdin chunks => ∀ b ∈ turnsOf x (.stdin chunks), b.marked = true ∨
      b.before.2.asdulist.length + (b.units.length - iecsockCanQueue b.before.1) ≤ limlistsize
  | _ => True

instance (x : Process) (e : LinkEvent) : Decidable (Slack x e) :=
  match e with
  | .recv _ => inferInstanceAs (Decidable (_ → _))
  | .stdin _ => inferInstanceAs (Decidable (∀ b ∈ _, _ ∨ _))
  | .badHeader | .t1 | .t2 | .t3 | .error | .connect => isTrue trivial

section Count

variable {x y : Process}

private theorem Counted.fed {us passed listed : List Asdu} (h : Counted x.2)
    (fed : Fed x us passed listed y) : Counted y.2 ∧
      y.2.asdulist.length = x.2.asdulist.length + (us.length - iecsockCanQueue x.1) := by
  have list := fed.asdulist
  have counter := fed.curlistsize
  have count := fed.count
  have all := congrArg List.length fed.split
  rw [h.linked, if_pos rfl] at list
  rw [List.length_append] at all
  refine ⟨⟨fed.linked.trans h.linked, ?_⟩, ?_⟩
  · rw [counter, h.count, list, List.length_append]
  · rw [list, List.length_append]
    omega

private theorem Counted.received {f : Apdu} (h : Counted x.2) (slack : Slack x (.recv f))
    (r : Received x f y) : Counted y.2 := by
  cases r with
  | @woken t sent rest z _ acks kicked _ same =>
    have none := slack acks
    have split : x.2.asdulist = sent ++ rest := kicked.split
    obtain ⟨rfl, rfl⟩ := List.append_eq_nil_iff.mp (split.symm.trans none)
    rw [same]
    refine ⟨?_, ?_⟩
    · change z.2.linked = true
      rw [kicked.linked]
      simp [none, h.linked]
    · change z.2.curlistsize = z.2.asdulist.length
      rw [kicked.curlistsize, kicked.asdulist]
      exact h.count.trans (congrArg List.length none)
  | moved _ _ _ _ same =>
    rw [same]
    exact ⟨h.linked, h.count⟩
  | other _ _ same =>
    rw [same]
    exact ⟨h.linked, h.count⟩

private theorem Counted.goesOn {b : Batch} (turn : Turn b) (clear : b.before.2.asdubuf = noAsdu)
    (drained : Drained b.before.1) (h : Counted b.before.2)
    (slack : b.marked = true ∨
      b.before.2.asdulist.length + (b.units.length - iecsockCanQueue b.before.1) ≤ limlistsize)
    (more : b.goesOn = true) : b.after.2.asdulist.length < limlistsize := by
  obtain ⟨passed, listed, fed⟩ := turn.fed clear drained
  obtain ⟨after, length⟩ := h.fed fed
  obtain ⟨unmarked, unequal⟩ := turn.goesOn.mp more
  rw [unmarked] at slack
  have fits := slack.resolve_left nofun
  rw [after.count] at unequal
  omega

private theorem counted_step (x : Process) (e : LinkEvent) (y : Process) (past : List Batch)
    (h : Clear x ∧ Counted x.2 ∧
      ∀ b ∈ past, b.goesOn = true → b.after.2.asdulist.length < limlistsize)
    (slack : Slack x e) (happens : linkStep x e = some y) :
    Clear y ∧ Counted y.2 ∧
      ∀ b ∈ past ++ turnsOf x e, b.goesOn = true → b.after.2.asdulist.length < limlistsize := by
  obtain ⟨clear, counted, before⟩ := h
  have linked := counted.linked
  have count := counted.count
  refine ⟨linkStep_clear clear happens, ?_⟩
  have others (none : turnsOf x e = []) :
      ∀ b ∈ past ++ turnsOf x e, b.goesOn = true → b.after.2.asdulist.length < limlistsize := by
    rw [none, List.append_nil]
    exact before
  cases linkStep_outcome happens with
  | connect _ => exact ⟨⟨linked, count⟩, others rfl⟩
  | @stdin chunks _ _ =>
    obtain ⟨passed, listed, fed⟩ := stdin_fed clear chunks
    refine ⟨(counted.fed fed).1, ?_⟩
    intro b member
    rcases List.mem_append.mp member with old | new
    · exact before b old
    · have turns := stdinRead_turns chunks (x.1, { x.2 with user := .idle })
      obtain ⟨_, each⟩ := turns.each
        (I := fun z => z.2.asdubuf = noAsdu ∧ Drained z.1 ∧ Counted z.2)
        (fun b turn h => by
          obtain ⟨passed, listed, fed⟩ := turn.fed h.1 h.2.1
          exact ⟨turn.clear h.1, fed.drained, (h.2.2.fed fed).1⟩)
        ⟨clear.2, clear.1.1, ⟨linked, count⟩⟩
      obtain ⟨turn, found, drained, counts⟩ := each b new
      exact counts.goesOn turn found drained (slack b new)
  | accepted _ handled =>
    exact ⟨counted.received slack (handled_received clear.1.1 handled), others rfl⟩
  | rejected _ _ handled =>
    have after := counted.received slack (handled_received clear.1.1 handled)
    exact ⟨⟨after.linked, after.count⟩, others rfl⟩
  | badHeader _ => exact ⟨⟨linked, count⟩, others rfl⟩
  | t1 _ => exact ⟨⟨linked, count⟩, others rfl⟩
  | t2 _ => exact ⟨⟨linked, count⟩, others rfl⟩
  | t3 _ => exact ⟨⟨linked, count⟩, others rfl⟩
  | error _ => exact ⟨⟨linked, count⟩, others rfl⟩

end Count

/-- In every run with slack the counter is the length of the list, and `stdin_read` goes on
to another `read` only while the list is below its limit. -/
theorem slack_counted {es : List LinkEvent} {x : Process}
    (slack : Guarded linkStep Slack linkStart es)
    (reached : run linkStep linkStart es = some x) :
    x.2.curlistsize = x.2.asdulist.length ∧
      ∀ b ∈ observe linkStep turnsOf linkStart es, b.goesOn = true →
        b.after.2.asdulist.length < limlistsize := by
  have start : Counted linkStart.2 := ⟨rfl, rfl⟩
  obtain ⟨_, counted, turns⟩ := guarded_history counted_step
    ⟨linkStart_clear, start, fun b member => absurd member List.not_mem_nil⟩ slack reached
  exact ⟨counted.count, turns⟩

section Runs

set_option maxRecDepth 8000

def slackRun : List LinkEvent :=
  [.recv ⟨uframeHdr .startcon, []⟩, .stdin [dataLines 7, dataLines 6]]

theorem slack_counted_thirteen : ∃ x, run linkStep linkStart slackRun = some x ∧
    (observe linkStep turnsOf linkStart slackRun).length = 2 ∧ x.2.asdulist.length = 1 ∧
    x.2.curlistsize = x.2.asdulist.length := by
  have reached : run linkStep linkStart slackRun = some _ := rfl
  refine ⟨_, reached, rfl, rfl, ?_⟩
  exact (slack_counted (by decide) reached).1

def passingRun : List LinkEvent := [.recv ⟨uframeHdr .startcon, []⟩, .stdin [dataLines 25]]

theorem counter_wrong :
    (∃ x, run linkStep linkStart overflowRun = some x ∧
      x.2.curlistsize = 1 ∧ x.2.asdulist.length = 0) ∧
    ∃ b ∈ observe linkStep turnsOf linkStart passingRun, b.goesOn = true ∧
      b.after.2.asdulist.length = 13 :=
  ⟨⟨_, rfl, rfl, rfl⟩, _, List.mem_singleton.mpr rfl, rfl, rfl⟩

end Runs

end IecUtils.Link.Overflow
