/- Module: IecUtils/Link/Notification
   source: disconnect_hook and activation_hook of ieclink/ieclink.c, the closing paths of ieclink/iecsock.c
   digest: When two activation lines on standard output have a disconnection line between them. -/

import IecUtils.Link.Ieclink

set_option autoImplicit false
set_option relaxedAutoImplicit false

namespace IecUtils.Link.Notification

open IecUtils.Foundation.Transition
open IecUtils.Link.Frame
open IecUtils.Link.Session
open IecUtils.Link.Handling
open IecUtils.Link.Ieclink

/-- Between any two lines `+` there is a line `-`. -/
def Faithful (out : List Line) : Prop :=
  ∀ a b c, out = a ++ .activated :: (b ++ .activated :: c) → .disconnected ∈ b

def Standing (out : List Line) : Prop := ∃ a b, out = a ++ .activated :: b ∧ .disconnected ∉ b

section Lines

variable {out more : List Line} {l : Line}

theorem Faithful.snoc (h : Faithful out) (fresh : l = .activated → ¬ Standing out) :
    Faithful (out ++ [l]) := by
  intro a b c split
  rcases List.eq_nil_or_concat c with rfl | ⟨before, last, rfl⟩
  · have regrouped : out ++ [l] = (a ++ .activated :: b) ++ [.activated] := by simpa using split
    obtain ⟨earlier, same⟩ := List.append_inj' regrouped rfl
    by_contra silent
    exact fresh (List.singleton_inj.mp same) ⟨a, b, earlier, silent⟩
  · have regrouped : out ++ [l] = (a ++ .activated :: (b ++ .activated :: before)) ++ [last] := by
      simpa using split
    exact h a b before (List.append_inj' regrouped rfl).1

theorem Standing.of_snoc (h : Standing (out ++ [l])) :
    l = .activated ∨ (l ≠ .disconnected ∧ Standing out) := by
  obtain ⟨a, b, split, silent⟩ := h
  rcases List.eq_nil_or_concat b with rfl | ⟨before, last, rfl⟩
  · left
    exact List.singleton_inj.mp (List.append_inj' split rfl).2
  · right
    have regrouped : out ++ [l] = (a ++ .activated :: before) ++ [last] := by simpa using split
    obtain ⟨earlier, same⟩ := List.append_inj' regrouped rfl
    obtain rfl := List.singleton_inj.mp same
    refine ⟨?_, a, before, earlier, ?_⟩
    · rintro rfl
      exact silent (by simp)
    · intro told
      exact silent (by simp [told])

end Lines

def rejects (s : Iecsock) (f : Apdu) : Prop :=
  match frameType f.h with
  | .i => checkNr s f.h.nr = false ∨ f.h.ns ≠ s.vr
  | .s => checkNr s f.h.nr = false
  | .u => refuses s (uframeFunc f.h)

/-- On a connection that `activation_hook` has reported, no header and no frame is
rejected and STARTDT is not confirmed again. -/
def tellsLoss (x : Process) : LinkEvent → Prop
  | .recv f => x.2.user = .unset ∨
      ¬ rejects x.1 f ∧ ¬ (frameType f.h = .u ∧ uframeFunc f.h = .startcon)
  | .badHeader => x.2.user = .unset
  | _ => True

/-- The invariant: what iecproxy takes for a standing connection is one. -/
structure Told (x : Process) : Prop where
  master : x.1.type = .master
  faithful : Faithful x.2.stdout
  standing : Standing x.2.stdout → x.1.closed = false ∧ x.2.user ≠ .unset

/-- A change that tells iecproxy nothing about connections. -/
structure Murmurs (x y : Process) : Prop where
  type : y.1.type = x.1.type
  closed : y.1.closed = x.1.closed
  user : x.2.user ≠ .unset → y.2.user ≠ .unset
  faithful : Faithful x.2.stdout → Faithful y.2.stdout
  standing : Standing y.2.stdout → Standing x.2.stdout

section Step

variable {x y z : Process}

private theorem Murmurs.trans (first : Murmurs x y) (second : Murmurs y z) : Murmurs x z where
  type := second.type.trans first.type
  closed := second.closed.trans first.closed
  user set := second.user (first.user set)
  faithful h := second.faithful (first.faithful h)
  standing h := first.standing (second.standing h)

private theorem Murmurs.silent (type : y.1.type = x.1.type) (closed : y.1.closed = x.1.closed)
    (stdout : y.2.stdout = x.2.stdout) (user : x.2.user ≠ .unset → y.2.user ≠ .unset) :
    Murmurs x y := by
  refine ⟨type, closed, user, ?_, ?_⟩
  · intro h
    rw [stdout]
    exact h
  · intro h
    rw [stdout] at h
    exact h

private theorem Murmurs.line {l : Line} (plus : l ≠ .activated) (closed : y.1.closed = x.1.closed)
    (type : y.1.type = x.1.type) (stdout : y.2.stdout = x.2.stdout ++ [l])
    (user : x.2.user ≠ .unset → y.2.user ≠ .unset) : Murmurs x y := by
  refine ⟨type, closed, user, ?_, ?_⟩
  · intro h
    rw [stdout]
    exact h.snoc fun is => absurd is plus
  · intro h
    rw [stdout] at h
    exact (h.of_snoc.resolve_left plus).2

private theorem Told.murmurs (h : Told x) (change : Murmurs x y) : Told y := by
  refine ⟨change.type.trans h.master, change.faithful h.faithful, ?_⟩
  intro stands
  obtain ⟨opened, set⟩ := h.standing (change.standing stands)
  exact ⟨change.closed.trans opened, change.user set⟩

private theorem eventAdd_fields (p : Program) : (eventAdd p).stdout = p.stdout ∧
    (p.user ≠ .unset → (eventAdd p).user = .pending) := by
  unfold eventAdd
  split
  · rename_i unset
    exact ⟨rfl, fun set => absurd unset set⟩
  · exact ⟨rfl, fun _ => rfl⟩

private theorem iecKickCallback_told (x : Process) :
    ((iecKickCallback x).2.stdout = x.2.stdout ∨
      (iecKickCallback x).2.stdout = x.2.stdout ++ [.confirm]) ∧
    (x.2.user ≠ .unset → (iecKickCallback x).2.user ≠ .unset) := by
  obtain ⟨_, stdout, user⟩ := kickLoop_sends x.2.asdulist x
  unfold iecKickCallback
  simp only
  generalize kickLoop x.2.asdulist x = result at stdout user ⊢
  obtain ⟨rest, y⟩ := result
  simp only at stdout user ⊢
  have added {p : Program} (same : p.user = y.2.user) (set : x.2.user ≠ .unset) :
      (eventAdd p).user ≠ .unset := by
    rw [(eventAdd_fields p).2 (by rw [same, user]; exact set)]
    decide
  by_cases emptied : rest = []
  · cases ended : y.2.endmsg with
    | false =>
      rw [if_pos ⟨emptied, rfl⟩]
      refine ⟨.inl ?_, added rfl⟩
      rw [(eventAdd_fields _).1]
      exact stdout
    | true =>
      rw [if_neg (by simp), if_pos ⟨emptied, rfl⟩]
      refine ⟨.inr ?_, added rfl⟩
      simp only [(eventAdd_fields _).1, stdout]
  · simp only [emptied, false_and, if_false]
    refine ⟨.inl stdout, fun set => ?_⟩
    rw [user]
    exact set

private theorem iecKickCallback_murmurs (x : Process) : Murmurs x (iecKickCallback x) := by
  have sent := (kickLoop_sends x.2.asdulist x).1
  rw [← iecKickCallback_session] at sent
  obtain ⟨lines, stays⟩ := iecKickCallback_told x
  rcases lines with same | confirmed
  · exact .silent sent.unsent.type sent.unsent.closed same stays
  · exact .line (by decide) sent.unsent.closed sent.unsent.type confirmed stays

private theorem wake_murmurs (x : Process) : Murmurs x (wakeIfAcked defaultHooks x) := by
  unfold wakeIfAcked
  split
  · have stopped : Murmurs x (t1TimerStop x.1, x.2) := .silent rfl rfl rfl id
    exact stopped.trans (iecKickCallback_murmurs _)
  · exact .silent rfl rfl rfl id

private theorem ackedByIframe_murmurs (x : Process) (nr : Nat) :
    Murmurs x (ackedByIframe defaultHooks x nr) := by
  have moved : Murmurs x ({ heardFrame x.1 with va := nr }, x.2) := .silent rfl rfl rfl id
  exact moved.trans (wake_murmurs _)

private theorem ackedByIframe_vr (x : Process) (nr : Nat) :
    (ackedByIframe defaultHooks x nr).1.vr = x.1.vr := by
  unfold ackedByIframe wakeIfAcked
  split
  · change (iecKickCallback _).1.vr = _
    rw [iecKickCallback_session]
    exact (kickLoop_sends _ _).1.unsent.vr
  · rfl

private theorem counted_murmurs (x : Process) : Murmurs x (counted x.1, x.2) := by
  obtain ⟨_, _, same⟩ := counted_touches x.1
  rw [same]
  exact .silent rfl rfl rfl id

private theorem accepted_cases {f : Apdu} (master : x.1.type = .master)
    (handled : Handled defaultHooks x f 0 y) :
    Murmurs x y ∨ (frameType f.h = .u ∧ uframeFunc f.h = .startcon ∧
      y = activationHook ({ heardFrame x.1 with t1Timer := false, stopdt := false }, x.2)) := by
  cases handled with
  | ignored type gate => exact .inl (.silent rfl rfl rfl id)
  | @iframe m type opened nr acked ns =>
    have woken := ackedByIframe_murmurs x f.h.nr
    rw [acked] at woken
    have shown : Murmurs (counted m.1, m.2)
        (dataReceivedHook ⟨f.h.length - 4, f.h, f.data⟩ (counted m.1, m.2)) :=
      .line (by simp) rfl rfl rfl id
    exact .inl ((woken.trans (counted_murmurs m)).trans shown)
  | sframe type nr =>
    have moved : Murmurs x
        ({ iecsockRunAckwQueue (heardFrame x.1) f.h.nr with va := f.h.nr }, x.2) :=
      .silent rfl rfl rfl id
    exact .inl (moved.trans (wake_murmurs _))
  | startact type func side => exact absurd (master.symm.trans side) (by decide)
  | startcon type func side => exact .inr ⟨type, func, rfl⟩
  | stopact type func side => exact absurd (master.symm.trans side) (by decide)
  | stopcon type func side => exact .inl (.silent rfl rfl rfl id)
  | testact type func quiet => exact .inl (.silent rfl rfl rfl id)
  | testcon type func armed => exact .inl (.silent rfl rfl rfl id)

/-- A non-zero result comes from the conditions the handlers check, and all that
happens before it is not about the connection. -/
private theorem rejected_murmurs {f : Apdu} {r : Int} (bad : r ≠ 0)
    (handled : Handled defaultHooks x f r y) : rejects x.1 f ∧ Murmurs x y := by
  cases handled with
  | badNr type opened nr =>
    refine ⟨?_, .silent rfl rfl rfl id⟩
    unfold rejects
    cases kind : frameType f.h with
    | i => exact .inl nr
    | s => exact nr
    | u => exact absurd kind type
  | @badNs m type opened nr acked ns =>
    have woken := ackedByIframe_murmurs x f.h.nr
    have same := ackedByIframe_vr x f.h.nr
    rw [acked] at woken same
    refine ⟨?_, woken.trans (.silent rfl rfl rfl id)⟩
    simp only [rejects, type]
    right
    rw [← same]
    exact ns
  | refused type no =>
    refine ⟨?_, .silent rfl rfl rfl id⟩
    simp only [rejects, type]
    exact no
  | _ => exact absurd rfl bad

private theorem Told.activated (h : Told x) (opened : x.1.closed = false)
    (unset : x.2.user = .unset) :
    Told (activationHook ({ heardFrame x.1 with t1Timer := false, stopdt := false }, x.2)) := by
  refine ⟨h.master, ?_, ?_⟩
  · apply h.faithful.snoc
    intro _ stands
    exact (h.standing stands).2 unset
  · intro _
    refine ⟨opened, ?_⟩
    have pending : (eventAdd { x.2 with user := .idle }).user = .pending :=
      (eventAdd_fields _).2 (by simp)
    simp only [activationHook, pending]
    decide

private theorem Told.closed (h : Told x) (down : ¬ Standing x.2.stdout) : Told (closeLink x) :=
  ⟨h.master, h.faithful, fun stands => absurd stands down⟩

private theorem Told.lost (h : Told x) : Told (connectionLost x) := by
  refine ⟨h.master, ?_, ?_⟩
  · exact h.faithful.snoc fun is => absurd is (by decide)
  · intro stands
    have last : Standing (x.2.stdout ++ [.disconnected]) := stands
    rcases last.of_snoc with is | ⟨other, _⟩
    · exact absurd is (by decide)
    · exact absurd rfl other

private theorem stdin_silent (start : Process) : LineInvariant fun y =>
    y.1.type = start.1.type ∧ y.1.closed = start.1.closed ∧ y.2.stdout = start.2.stdout ∧
      y.2.user = start.2.user where
  buffers _ _ _ _ h := h
  accept x asdu h := by
    unfold acceptAsdu
    simp only
    split
    · have sent := (iecAsduSend_sends (x.1, { x.2 with accepted := x.2.accepted ++ [asdu] }) asdu).unsent
      exact ⟨sent.type.trans h.1, sent.closed.trans h.2.1, h.2.2⟩
    · exact h

private theorem linkStep_told (x : Process) (e : LinkEvent) (y : Process) (h : Told x)
    (tells : tellsLoss x e) (happens : linkStep x e = some y) : Told y := by
  cases linkStep_outcome happens with
  | connect closed =>
    refine ⟨rfl, h.faithful, ?_⟩
    intro stands
    exact absurd ((h.standing stands).1.symm.trans closed) (by decide)
  | @stdin chunks opened waiting =>
    obtain ⟨type, closed, stdout, user⟩ := stdinRead_keeps
      (stdin_silent (x.1, { x.2 with user := .idle })) chunks ⟨rfl, rfl, rfl, rfl⟩
    refine h.murmurs (.silent type closed stdout ?_)
    intro _
    rw [user]
    show UserEvent.idle ≠ .unset
    decide
  | accepted opened handled =>
    rcases accepted_cases h.master handled with change | ⟨type, func, rfl⟩
    · exact h.murmurs change
    · have unset : x.2.user = .unset := tells.resolve_right fun both => both.2 ⟨type, func⟩
      exact h.activated opened unset
  | rejected opened bad handled =>
    obtain ⟨refused, change⟩ := rejected_murmurs bad handled
    have unset : x.2.user = .unset := tells.resolve_right fun both => both.1 refused
    refine (h.murmurs change).closed ?_
    intro stands
    exact (h.standing (change.standing stands)).2 unset
  | badHeader opened => exact h.closed fun stands => (h.standing stands).2 tells
  | t1 opened => exact Told.lost ⟨h.master, h.faithful, h.standing⟩
  | t2 opened => exact ⟨h.master, h.faithful, h.standing⟩
  | t3 opened => exact ⟨h.master, h.faithful, h.standing⟩
  | error opened => exact h.lost

end Step

/-- In every run in which no reported connection is given up in silence or reported
again: between any two lines `+` on standard output there is a line `-`. -/
theorem notifications_faithful {es : List LinkEvent} {x : Process}
    (meets : Guarded linkStep tellsLoss linkStart es) (reached : run linkStep linkStart es = some x) :
    Faithful x.2.stdout := by
  have start : Told linkStart := by
    refine ⟨rfl, ?_, ?_⟩
    · intro a b c split
      have length := congrArg List.length split
      simp [linkStart, connectLink, Program.fresh] at length
    · rintro ⟨a, b, split, _⟩
      have length := congrArg List.length split
      simp [linkStart, connectLink, Program.fresh] at length
  exact (guarded_invariant linkStep_told start meets reached).faithful

/-- The socket fails and the next connection is activated. -/
theorem notifications_faithful_error :
    ∃ x, run linkStep linkStart [.recv ⟨uframeHdr .startcon, []⟩, .error, .connect,
        .recv ⟨uframeHdr .startcon, []⟩] = some x ∧
      x.2.stdout = [.activated, .disconnected, .activated] ∧ Faithful x.2.stdout := by
  have reached : run linkStep linkStart [.recv ⟨uframeHdr .startcon, []⟩, .error, .connect,
      .recv ⟨uframeHdr .startcon, []⟩] = some _ := rfl
  have meets : Guarded linkStep tellsLoss linkStart [.recv ⟨uframeHdr .startcon, []⟩, .error,
      .connect, .recv ⟨uframeHdr .startcon, []⟩] := by
    refine ⟨.inl rfl, fun _ first => ⟨trivial, fun _ second => ⟨trivial, fun _ third => ⟨?_, fun _ _ => trivial⟩⟩⟩⟩
    obtain rfl := Option.some.inj first
    obtain rfl := Option.some.inj second
    obtain rfl := Option.some.inj third
    exact .inl rfl
  exact ⟨_, reached, rfl, notifications_faithful meets reached⟩

/-- A rejected header ends the first connection, and iecproxy hears of the second
one only. -/
theorem notifications_silent_header :
    ∃ x, run linkStep linkStart [.recv ⟨uframeHdr .startcon, []⟩, .badHeader, .connect,
        .recv ⟨uframeHdr .startcon, []⟩] = some x ∧ ¬ Faithful x.2.stdout := by
  refine ⟨_, rfl, ?_⟩
  intro faithful
  have told := faithful [] [] [] rfl
  cases told

end IecUtils.Link.Notification
