/- Module: IecUtils/Proxy/Match
   source: main of iecproxy/iecproxy.c
   digest: Confirmations reach the client they belong to as long as no other mark is open with it. -/

import IecUtils.Proxy.Poll
import Mathlib.Data.List.GetD

set_option autoImplicit false
set_option relaxedAutoImplicit false

namespace IecUtils.Proxy.Match

open IecUtils.Foundation.Transition
open IecUtils.Proxy.Poll

def Matched (a : Answer) : Prop :=
  a.mark.conn = some a.client.id ∧ a.mark.forwarded = a.client.chunks

/-- No mark of somebody else is open together with a client: an interrogation is
not served while a client is connected, and a client is accepted only when every
mark so far is answered. -/
def Apart (p : ProxyState) (w : Ready) : Prop :=
  (∀ l ∈ w.line, classify l.1 = .giAct → p.newConnect = false → p.fd2 = none) ∧
  (w.incoming.isSome → (fd0Stage p w).answered = (fd0Stage p w).marks.length)

instance (p : ProxyState) (w : Ready) : Decidable (Apart p w) :=
  inferInstanceAs (Decidable (_ ∧ _))

/-- Every mark that may still be answered belongs to the open connection. -/
structure Owned (p : ProxyState) : Prop where
  open_marks : ∀ c, p.fd2 = some c → ∀ m ∈ p.marks.drop p.answered,
    m.conn = some c.id ∧ m.forwarded = c.chunks
  answered_le : p.answered ≤ p.marks.length
  matched : ∀ a ∈ p.answers, Matched a

section Stages

variable {p : ProxyState} {w : Ready}

private theorem Owned.closed {q : ProxyState} (h : Owned p) (closed : q.fd2 = none)
    (answered : q.answered ≤ q.marks.length) (answers : q.answers = p.answers) : Owned q := by
  refine ⟨?_, answered, ?_⟩
  · intro c opened
    rw [closed] at opened
    cases opened
  · rw [answers]
    exact h.matched

private theorem Owned.confirm (h : Owned p) {mark : Nat} (low : p.answered ≤ mark)
    (high : mark < p.marks.length) : Owned (confirmLine p mark) := by
  unfold confirmLine
  simp only
  cases client : p.fd2 with
  | none => exact h.closed rfl high rfl
  | some c =>
    refine ⟨?_, high, ?_⟩
    · intro d opened
      cases opened
    · intro a member
      rcases List.mem_append.mp member with old | new
      · exact h.matched a old
      · obtain rfl := List.mem_singleton.mp new
        apply h.open_marks c client
        have position : p.marks.getD mark ⟨none, []⟩ = (p.marks.drop p.answered).getD
            (mark - p.answered) ⟨none, []⟩ := by
          simp only [List.getD_eq_getElem?_getD, List.getElem?_drop]
          rw [Nat.add_sub_cancel' low]
        rw [position]
        have inside : mark - p.answered < (p.marks.drop p.answered).length := by
          rw [List.length_drop]
          omega
        rw [List.getD_eq_getElem _ _ inside]
        exact List.getElem_mem inside

private theorem Owned.linkLine (h : Owned p) {line : LinkLine} {mark : Nat}
    {gi : List (List UInt8)}
    (order : line = .confirm → p.answered ≤ mark ∧ mark < p.marks.length)
    (apart : line = .giAct → p.newConnect = false → p.fd2 = none) :
    Owned (linkLine p line mark gi) := by
  cases line with
  | endInit => exact h
  | giAct =>
    simp only [Poll.linkLine, giActLine]
    split
    · exact { h with }
    · rename_i served
      have closed := apart rfl (by simpa using served)
      refine h.closed closed ?_ rfl
      have bound := h.answered_le
      simp only [writeMark, write, ginterrog, List.length_append]
      omega
  | plus => exact { h with }
  | minus => exact h.closed rfl h.answered_le rfl
  | confirm =>
    obtain ⟨low, high⟩ := order rfl
    exact h.confirm low high
  | other => exact h

private theorem readLoop_spec (gi : List (List UInt8)) (ending : Ending)
    (chunks done : List (List UInt8)) (p : ProxyState) :
    let r := readLoop gi ending chunks done p
    r.2.marks = p.marks ∧ r.2.answered = p.answered ∧ r.2.answers = p.answers ∧
      (r.2.fd2 = none ∨ r.2.fd2 = p.fd2 ∧ r.1 = done ++ chunks) := by
  induction chunks generalizing done p with
  | nil =>
    unfold readLoop
    cases ending with
    | eof => exact ⟨rfl, rfl, rfl, .inr ⟨rfl, (List.append_nil done).symm⟩⟩
    | reset => exact ⟨rfl, rfl, rfl, .inl rfl⟩
  | cons chunk chunks ih =>
    unfold readLoop
    split
    · exact ⟨rfl, rfl, rfl, .inl rfl⟩
    · obtain ⟨marks, answered, answers, rest⟩ := ih (done ++ [chunk]) (write p (.data chunk))
      refine ⟨marks, answered, answers, ?_⟩
      rcases rest with closed | ⟨opened, all⟩
      · exact .inl closed
      · exact .inr ⟨opened, by rw [all, List.append_assoc, List.singleton_append]⟩

private theorem Owned.clientData (h : Owned p) (gi : List (List UInt8)) :
    Owned (clientData p gi) := by
  have bound := h.answered_le
  unfold Poll.clientData
  cases client : p.fd2 with
  | none =>
    simp only
    refine h.closed client ?_ rfl
    simp only [writeMark, List.length_append]
    omega
  | some c =>
    simp only
    obtain ⟨marks, answered, answers, rest⟩ := readLoop_spec gi c.ending c.chunks [] p
    generalize readLoop gi c.ending c.chunks [] p = r at marks answered answers rest
    obtain ⟨forwarded, q⟩ := r
    simp only at marks answered answers rest ⊢
    rcases rest with closed | ⟨opened, all⟩
    · refine h.closed closed ?_ answers
      simp only [writeMark, answered, marks, List.length_append]
      omega
    · refine ⟨?_, ?_, ?_⟩
      · intro d same m member
        rw [client] at opened
        obtain rfl : c = d := Option.some.inj (opened.symm.trans same)
        simp only [writeMark, marks, answered] at member
        rw [List.drop_append_of_le_length bound] at member
        rcases List.mem_append.mp member with old | new
        · exact h.open_marks c client m old
        · obtain rfl := List.mem_singleton.mp new
          exact ⟨by rw [opened]; rfl, by simpa using all⟩
      · simp only [writeMark, answered, marks, List.length_append]
        omega
      · intro a member
        exact h.matched a (by simpa [writeMark, answers] using member)

private theorem Owned.fd2Stage (h : Owned p) (w : Ready) : Owned (fd2Stage p w) := by
  unfold Poll.fd2Stage
  split
  · exact h.clientData w.gi
  · exact h

private theorem Owned.fd1Stage (h : Owned p) (w : Ready) (nready : Int)
    (settled : w.incoming.isSome → p.answered = p.marks.length) :
    Owned (fd1Stage p w nready) := by
  unfold Poll.fd1Stage
  cases incoming : w.incoming with
  | none => exact h.fd2Stage w
  | some client =>
    obtain ⟨chunks, ending⟩ := client
    have all := settled (by rw [incoming]; rfl)
    have accepted : Owned (acceptClient p chunks ending) := by
      refine ⟨?_, h.answered_le, h.matched⟩
      intro c _ m member
      simp only [acceptClient, all, List.drop_length] at member
      cases member
    simp only
    split
    · exact accepted
    · exact accepted.fd2Stage w

private theorem pollBody_owned (h : Owned p) (possible : Possible p w) (apart : Apart p w) :
    Owned (pollBody p w) := by
  obtain ⟨order, _⟩ := possible
  obtain ⟨alone, settled⟩ := apart
  unfold pollBody
  cases line : w.line with
  | none =>
    have same : fd0Stage p w = p := by rw [fd0Stage, line]
    rw [same] at settled
    exact h.fd1Stage w w.nready settled
  | some read =>
    obtain ⟨buf, mark⟩ := read
    have handled : Owned (fd0Stage p w) := by
      simp only [fd0Stage, line]
      exact h.linkLine (order (buf, mark) line) (alone (buf, mark) line)
    simp only
    split_ifs
    · exact h
    · exact handled
    · exact handled.fd1Stage w _ settled

private theorem fresh_owned : Owned ProxyState.fresh := by
  refine ⟨?_, Nat.le_refl 0, ?_⟩
  · intro c opened
    cases opened
  · intro a member
    cases member

end Stages

/-- In every run that keeps other marks apart from connected clients, each '<' a
client gets answers the mark sent after all of that client's data. -/
theorem answers_matched {ws : List Ready} {p : ProxyState}
    (apart : Guarded proxyStep Apart ProxyState.fresh ws)
    (reached : run proxyStep ProxyState.fresh ws = some p) :
    ∀ a ∈ p.answers, Matched a := by
  have keeps (p : ProxyState) (w : Ready) (q : ProxyState) (h : Owned p) (meets : Apart p w)
      (happens : proxyStep p w = some q) : Owned q := by
    unfold proxyStep at happens
    split at happens
    · rename_i possible
      obtain rfl := Option.some.inj happens
      exact pollBody_owned h possible meets
    · cases happens
  exact (guarded_invariant keeps fresh_owned apart reached).matched

section Runs

def lineOf (c : UInt8) : List UInt8 := [c, 10]

def linkUp : List Ready := [{ line := some (lineOf 43, 0) }, { line := some (giAct ++ [10], 0) }]

/-- A client with one line of data, accepted and then read to its end. -/
def oneClient : List Ready := [{ incoming := some ([[54, 52, 10]], .eof) }, { readable := true }]

/-- One client alone gets its own confirmation. -/
theorem answers_matched_alone :
    ∃ p, run proxyStep ProxyState.fresh
        (linkUp ++ oneClient ++ [{ line := some (lineOf 60, 0) }]) = some p ∧
      p.answers.length = 1 ∧ ∀ a ∈ p.answers, Matched a := by
  have reached : run proxyStep ProxyState.fresh
      (linkUp ++ oneClient ++ [{ line := some (lineOf 60, 0) }]) = some _ := rfl
  exact ⟨_, reached, rfl, answers_matched (by decide) reached⟩

/-- A second interrogation is served, and before ieclink confirms it a client
connects: the client is told of a success that is not its own. -/
theorem answer_crossed :
    ∃ p, run proxyStep ProxyState.fresh
        (linkUp ++ [{ line := some (giAct ++ [10], 0) }] ++ oneClient ++
          [{ line := some (lineOf 60, 0) }]) = some p ∧
      ¬ ∀ a ∈ p.answers, Matched a := by
  have reached : run proxyStep ProxyState.fresh
      (linkUp ++ [{ line := some (giAct ++ [10], 0) }] ++ oneClient ++
        [{ line := some (lineOf 60, 0) }]) = some _ := rfl
  refine ⟨_, reached, ?_⟩
  intro matched
  have own := (matched _ (List.mem_singleton.mpr rfl)).1
  exact absurd own (by decide)

end Runs

end IecUtils.Proxy.Match
