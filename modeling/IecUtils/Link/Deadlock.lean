/- Module: IecUtils/Link/Deadlock
   source: iecsock_run_write_queue, iecsock_iframe_recv, iecsock_sframe_recv and t2_timer_run of ieclink/iecsock.c
   digest: Two sessions with w no larger than k never sit with empty channels and a full send window. -/

import IecUtils.Link.Obligation

set_option autoImplicit false
set_option relaxedAutoImplicit false

namespace IecUtils.Link.Deadlock

open IecUtils.Foundation.SequenceNumber
open IecUtils.Foundation.Transition
open IecUtils.Link.Frame
open IecUtils.Link.Session
open IecUtils.Link.Endpoint
open IecUtils.Link.Duplex
open IecUtils.Link.Handling
open IecUtils.Link.Obligation

/-- Each station owes fewer than `w` acknowledgements on top of those its peer has
or will take from the channel. -/
def Answering (w : Nat) (d : Pair) : Prop :=
  ∀ side : Side, Owing w (d.station side.other).1.va (d.station side).2.delivered.length
    (d.station side).1

section Step

variable {w k : Nat}

private theorem lastAck_cons (v : Nat) (f : Apdu) (rest : List Apdu) :
    lastAck v (f :: rest) = lastAck (if frameType f.h = .u then v else f.h.nr) rest := by
  by_cases control : frameType f.h = .u
  · simp [lastAck, ackNumbers, control]
  · simp only [lastAck, ackNumbers, if_neg control]
    rw [List.filter_cons_of_pos (by simpa using control), List.map_cons, List.getLastD_cons]

private theorem owing_taken {v n : Nat} {s : Iecsock} {f : Apdu} {rest : List Apdu}
    (h : Owing w v n s) (head : s.output = f :: rest) :
    Owing w (if frameType f.h = .u then v else f.h.nr) n { s with output := rest } := by
  refine ⟨h.option, h.counts, ?_, h.timer, h.prepared⟩
  obtain ⟨acked, latest, low, high, due, peer, last⟩ := h.owed
  refine ⟨acked, latest, low, high, due, peer, ?_⟩
  rw [head, lastAck_cons] at last
  exact last

private theorem act_answers {A B A' : Station} {act : Act} (one : 1 ≤ w) (hw : w < 32767)
    (mine : Owing w B.1.va A.2.delivered.length A.1)
    (other : Owing w A.1.va B.2.delivered.length B.1) (happens : step A act.event = some A') :
    A'.1.closed = true ∨ (Owing w B.1.va A'.2.delivered.length A'.1 ∧
      Owing w A'.1.va B.2.delivered.length B.1) := by
  have outcome := step_outcome happens
  rcases outcome_owing one hw mine outcome with closed | kept
  · exact .inl closed
  · cases shut : A'.1.closed with
    | true => exact .inl rfl
    | false =>
      have va : A'.1.va = A.1.va := by
        rw [outcome_va outcome shut]
        cases act <;> rfl
      rw [va]
      exact .inr ⟨kept, other⟩

/-- A side that takes a frame closes, or keeps its own obligation and passes the
frame's acknowledgement from the channel to its own window. -/
private theorem recv_answers {A B : Station} {f : Apdu} {rest : List Apdu} (script : HookScript)
    (one : 1 ≤ w) (hw : w < 32767) (mine : Owing w B.1.va A.2.delivered.length A.1)
    (other : Owing w A.1.va B.2.delivered.length B.1) (head : B.1.output = f :: rest)
    (started : frameType f.h = .i → ¬ A.1.gated) :
    (recvFrame script A f).1.closed = true ∨
      (Owing w B.1.va (recvFrame script A f).2.delivered.length (recvFrame script A f).1 ∧
        Owing w (recvFrame script A f).1.va B.2.delivered.length { B.1 with output := rest }) := by
  have outcome := recvFrame_outcome script A f
  rcases outcome_owing one hw mine outcome with closed | kept
  · exact .inl closed
  · cases shut : (recvFrame script A f).1.closed with
    | true => exact .inl rfl
    | false =>
      have va : (recvFrame script A f).1.va = if frameType f.h = .u then A.1.va else f.h.nr := by
        have heard : ¬ (frameType f.h = .i ∧ A.1.gated) := fun both => started both.1 both.2
        rw [outcome_va outcome shut]
        simp only [movedTo, heard, or_false]
      rw [va]
      exact .inr ⟨kept, owing_taken other head⟩

section Put

variable {d : Pair} {x y : Station}

private theorem other_other (side : Side) : side.other.other = side := by
  cases side <;> rfl

private theorem put_rest (side : Side) :
    (d.put x side).put (d.station side.other) side.other = d.put x side := by
  cases side <;> rfl

private theorem opened_put (side : Side) (still : ((d.put x side).put y side.other).opened) :
    x.1.closed = false := by
  cases side with
  | master => exact still.1
  | slave => exact still.2

private theorem answering_put (side : Side) (mine : Owing w y.1.va x.2.delivered.length x.1)
    (other : Owing w x.1.va y.2.delivered.length y.1) :
    Answering w ((d.put x side).put y side.other) := by
  cases side with
  | master =>
    rintro (_ | _)
    · exact mine
    · exact other
  | slave =>
    rintro (_ | _)
    · exact other
    · exact mine

end Put

private theorem answering_step {d d' : Pair} {e : DuplexEvent} (one : 1 ≤ w) (hw : w < 32767)
    (linked : d.opened → Linked k d) (h : d.opened → Answering w d)
    (happens : duplexStep d e = some d') : d'.opened → Answering w d' := by
  intro still
  unfold duplexStep at happens
  split at happens
  · rename_i opened
    have answering := h opened
    cases e with
    | act side act =>
      obtain ⟨x, stepped, rfl⟩ := Option.map_eq_some_iff.mp happens
      have peer := answering side.other
      rw [other_other] at peer
      -- the other side is put back as it was, so that both kinds of step end alike
      rw [← put_rest] at still ⊢
      rcases act_answers one hw (answering side) peer stepped with closed | ⟨mine, other⟩
      · exact absurd ((opened_put side still).symm.trans closed) (by decide)
      · exact answering_put side mine other
    | deliver side script =>
      have peer := answering side.other
      rw [other_other] at peer
      cases head : (d.station side.other).1.output with
      | nil => simp [head] at happens
      | cons f rest =>
        simp only [head] at happens
        obtain rfl := Option.some.inj happens
        have started := (linked opened).started side head
        rcases recv_answers script one hw (answering side) peer head started with
          closed | ⟨mine, other⟩
        · exact absurd ((opened_put side still).symm.trans closed) (by decide)
        · exact answering_put side mine other
  · cases happens

end Step

private theorem answering_start {opt : IecsockOptions} (one : 1 ≤ opt.w) :
    Answering opt.w (duplexStart opt) := by
  rintro (_ | _)
  · exact Unused.owing (s := (duplexStart opt).master.1) ⟨⟨rfl, rfl, rfl, rfl⟩, rfl, rfl⟩ one
  · exact Unused.owing (s := (duplexStart opt).slave.1) ⟨⟨rfl, rfl, rfl, rfl⟩, rfl, rfl⟩ one

private theorem window_open {w k ack : Nat} {A B : Station} (flow : Flow k A B ack)
    (owing : Owing w A.1.va B.2.delivered.length B.1) (hw : w < 32767)
    (sent : A.1.output = []) (back : B.1.output = []) : seqDist A.1.vs A.1.va < w := by
  obtain ⟨acked, latest, low, high, due, _, last⟩ := owing.owed
  have va : A.1.va = latest % 32767 := by
    rw [back] at last
    exact last
  have vs : A.1.vs = B.2.delivered.length % 32767 := by
    have count := flow.vs
    rw [sent] at count
    exact count
  have residue : A.1.va ≤ 32767 := by
    rw [va]
    exact (Nat.mod_lt _ (by decide)).le
  rw [seqDist_eq residue, va, vs, wrapDist_mod high (by omega)]
  omega

/-- However the two sides send, take frames and let their timers fire: whenever
both channels are empty and both sessions stand, neither send window is full. -/
theorem windows_open_when_quiet {opt : IecsockOptions} (one : 1 ≤ opt.w) (wk : opt.w ≤ opt.k)
    (hk : opt.k < 32767) {es : List DuplexEvent} {d : Pair}
    (reached : run duplexStep (duplexStart opt) es = some d) (opened : d.opened)
    (quiet : ∀ side : Side, (d.station side).1.output = []) (side : Side) :
    seqDist (d.station side).1.vs (d.station side).1.va < opt.k := by
  have hw : opt.w < 32767 := by omega
  have start := linked_start opt
  have invariant := run_invariant
    (I := fun d => (Prefixes d ∧ (d.opened → Linked opt.k d)) ∧ (d.opened → Answering opt.w d))
    (fun _ _ _ inv happens =>
      ⟨linked_step hk inv.1 happens, answering_step one hw inv.1.2 inv.2 happens⟩)
    ⟨⟨start.both.prefixes, fun _ => start⟩, fun _ => answering_start one⟩ reached
  obtain ⟨⟨_, link⟩, answer⟩ := invariant
  have linked := link opened
  have answering := answer opened
  have bound : seqDist (d.station side).1.vs (d.station side).1.va < opt.w := by
    cases side with
    | master =>
      obtain ⟨ack, flow⟩ := linked.both.1
      exact window_open flow (answering .slave) hw (quiet .master) (quiet .slave)
    | slave =>
      obtain ⟨ack, flow⟩ := linked.both.2
      exact window_open flow (answering .master) hw (quiet .slave) (quiet .master)
  omega

/-- The link is started, one unit crosses, and nothing is under way. -/
theorem windows_open_after_one :
    ∃ d, run duplexStep (duplexStart ⟨2, 2⟩)
        [.deliver .slave { }, .deliver .master { }, .act .master (.call (.enqueue reading)),
          .act .master (.call .runWriteQueue), .deliver .slave { }] = some d ∧
      (∀ side : Side, (d.station side).1.output = []) ∧
      seqDist (d.station .master).1.vs (d.station .master).1.va < 2 := by
  obtain ⟨d, reached, quiet, opened⟩ : ∃ d, run duplexStep (duplexStart ⟨2, 2⟩)
      [.deliver .slave { }, .deliver .master { }, .act .master (.call (.enqueue reading)),
        .act .master (.call .runWriteQueue), .deliver .slave { }] = some d ∧
      (∀ side : Side, (d.station side).1.output = []) ∧ d.opened := by
    refine ⟨_, rfl, ?_, by decide⟩
    rintro (_ | _)
    · rfl
    · rfl
  refine ⟨d, reached, quiet, ?_⟩
  exact windows_open_when_quiet (by decide) (by decide) (by decide) reached opened quiet .master

end IecUtils.Link.Deadlock
