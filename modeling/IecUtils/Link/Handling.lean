/- Module: IecUtils/Link/Handling
   source: ieclink/iecsock.c
   digest: The exact session every receive handler and every timer leaves, up to what the application sends from its hooks. -/

import IecUtils.Link.Endpoint

set_option autoImplicit false
set_option relaxedAutoImplicit false

namespace IecUtils.Link.Handling

open IecUtils.Foundation.Transition
open IecUtils.Link.Frame
open IecUtils.Link.Session
open IecUtils.Link.Endpoint

def heardFrame (s : Iecsock) : Iecsock := { s with t3Timer := true }

/-- An accepted information frame: restart `t2`, count the frame, and acknowledge
when `w` of them are due. -/
def counted (s : Iecsock) : Iecsock :=
  let s := { s with t2Timer := true, vr := (s.vr + 1) % 32767 }
  if seqDist s.vr s.vaPeer = s.w then { iecsockSframeSend s with vaPeer := s.vr } else s

theorem counted_cases (s : Iecsock) :
    (seqDist ((s.vr + 1) % 32767) s.vaPeer = s.w ∧
      counted s = { s with
        t2Timer := true
        vr := (s.vr + 1) % 32767
        vaPeer := (s.vr + 1) % 32767
        output := s.output ++ [⟨sframeHdr ((s.vr + 1) % 32767), []⟩] }) ∨
    (seqDist ((s.vr + 1) % 32767) s.vaPeer ≠ s.w ∧
      counted s = { s with t2Timer := true, vr := (s.vr + 1) % 32767 }) := by
  by_cases due : seqDist ((s.vr + 1) % 32767) s.vaPeer = s.w
  · exact .inl ⟨due, by simp only [counted, if_pos due]; rfl⟩
  · exact .inr ⟨due, by simp only [counted, if_neg due]⟩

theorem counted_touches (s : Iecsock) : ∃ vaPeer out, counted s = { s with
    t2Timer := true
    vr := (s.vr + 1) % 32767
    vaPeer := vaPeer
    output := out } := by
  rcases counted_cases s with ⟨_, same⟩ | ⟨_, same⟩
  · exact ⟨_, _, same⟩
  · exact ⟨_, _, same⟩

/-- The control functions `iecsock_uframe_recv` refuses. -/
def refuses (s : Iecsock) : UframeFunc → Prop
  | .startact => s.type ≠ .slave
  | .startcon => s.type ≠ .master
  | .stopact => s.type ≠ .slave
  | .stopcon => s.type ≠ .master
  | .testact => False
  | .testcon => s.testfr = false

section Handlers

variable {σ : Type} (hooks : Iechooks σ)

/-- The session and the application after `transmit_wakeup` may have run on an
acknowledgement carried by an information frame. -/
def ackedByIframe (x : Iecsock × σ) (nr : Nat) : Iecsock × σ :=
  wakeIfAcked hooks ({ heardFrame x.1 with va := nr }, x.2)

/-- The same for a supervisory frame, which also trims `ackw_q`. -/
def ackedBySframe (x : Iecsock × σ) (nr : Nat) : Iecsock × σ :=
  wakeIfAcked hooks ({ iecsockRunAckwQueue (heardFrame x.1) nr with va := nr }, x.2)

/-- What `iecsock_frame_recv` returns on a frame and what it leaves. -/
inductive Handled (x : Iecsock × σ) (f : Apdu) : Int → Iecsock × σ → Prop where
  | ignored : frameType f.h = .i → x.1.gated → Handled x f 0 (heardFrame x.1, x.2)
  | badNr : frameType f.h ≠ .u → ¬ (frameType f.h = .i ∧ x.1.gated) →
      checkNr x.1 f.h.nr = false → Handled x f (-1) (heardFrame x.1, x.2)
  | badNs {y : Iecsock × σ} : frameType f.h = .i → ¬ x.1.gated → checkNr x.1 f.h.nr = true →
      ackedByIframe hooks x f.h.nr = y → f.h.ns ≠ y.1.vr →
      Handled x f (-1) ({ y.1 with t2Timer := true }, y.2)
  | iframe {y : Iecsock × σ} : frameType f.h = .i → ¬ x.1.gated → checkNr x.1 f.h.nr = true →
      ackedByIframe hooks x f.h.nr = y → f.h.ns = y.1.vr →
      Handled x f 0 (indicate
        (hooks.dataIndication.map fun hook => hook ⟨f.h.length - 4, f.h, f.data⟩)
        (counted y.1, y.2))
  | sframe : frameType f.h = .s → checkNr x.1 f.h.nr = true →
      Handled x f 0 (ackedBySframe hooks x f.h.nr)
  | refused : frameType f.h = .u → refuses x.1 (uframeFunc f.h) →
      Handled x f (-1) (heardFrame x.1, x.2)
  | startact : frameType f.h = .u → uframeFunc f.h = .startact → x.1.type = .slave →
      Handled x f 0 (indicate hooks.activationIndication
        (iecsockRunWriteQueue
          (iecsockUframeSend { heardFrame x.1 with stopdt := false } .startcon), x.2))
  | startcon : frameType f.h = .u → uframeFunc f.h = .startcon → x.1.type = .master →
      Handled x f 0 (indicate hooks.activationIndication
        ({ heardFrame x.1 with t1Timer := false, stopdt := false }, x.2))
  | stopact : frameType f.h = .u → uframeFunc f.h = .stopact → x.1.type = .slave →
      Handled x f 0 (indicate hooks.deactivationIndication
        (iecsockUframeSend { heardFrame x.1 with stopdt := true } .stopcon, x.2))
  | stopcon : frameType f.h = .u → uframeFunc f.h = .stopcon → x.1.type = .master →
      Handled x f 0 (indicate hooks.deactivationIndication
        ({ heardFrame x.1 with stopdt := true }, x.2))
  | testact {t3 : Bool} : frameType f.h = .u → uframeFunc f.h = .testact →
      (t3 = false ↔ x.1.type = .slave ∧ x.1.testfr = false) →
      Handled x f 0 ({ iecsockUframeSend x.1 .testcon with t3Timer := t3 }, x.2)
  | testcon : frameType f.h = .u → uframeFunc f.h = .testcon → x.1.testfr = true →
      Handled x f 0 ({ heardFrame x.1 with t1Timer := false, testfr := false }, x.2)

variable {hooks}

private theorem iframe_handled (x : Iecsock × σ) (f : Apdu) (type : frameType f.h = .i)
    (opened : ¬ x.1.gated) :
    Handled hooks x f (iecsockIframeRecv hooks (heardFrame x.1, x.2) f).1
      (iecsockIframeRecv hooks (heardFrame x.1, x.2) f).2 := by
  have sameNr : checkNr (heardFrame x.1) f.h.nr = checkNr x.1 f.h.nr := rfl
  unfold iecsockIframeRecv
  cases nr : checkNr x.1 f.h.nr with
  | false =>
    simp only [sameNr, nr, Bool.not_false, if_true]
    exact .badNr (by simp [type]) (fun both => opened both.2) nr
  | true =>
    simp only [sameNr, nr, Bool.not_true, Bool.false_eq_true, if_false]
    generalize woken : wakeIfAcked hooks ({ heardFrame x.1 with va := f.h.nr }, x.2) = y
    have sameNs : checkNs (t2TimerStart (t2TimerStop y.1)) f.h.ns = checkNs y.1 f.h.ns := rfl
    cases ns : checkNs y.1 f.h.ns with
    | false =>
      simp only [sameNs, ns, Bool.not_false, if_true]
      refine .badNs type opened nr woken ?_
      intro equal
      rw [(checkNs_eq y.1 f.h.ns).mpr equal] at ns
      cases ns
    | true =>
      simp only [sameNs, ns, Bool.not_true, Bool.false_eq_true, if_false]
      exact .iframe type opened nr woken ((checkNs_eq y.1 f.h.ns).mp ns)

private theorem sframe_handled (x : Iecsock × σ) (f : Apdu) (type : frameType f.h = .s) :
    Handled hooks x f (iecsockSframeRecv hooks (heardFrame x.1, x.2) f).1
      (iecsockSframeRecv hooks (heardFrame x.1, x.2) f).2 := by
  have sameNr : checkNr (heardFrame x.1) f.h.nr = checkNr x.1 f.h.nr := rfl
  unfold iecsockSframeRecv
  cases nr : checkNr x.1 f.h.nr with
  | false =>
    simp only [sameNr, nr, Bool.not_false, if_true]
    exact .badNr (by simp [type]) (by simp [type]) nr
  | true =>
    simp only [sameNr, nr, Bool.not_true, Bool.false_eq_true, if_false]
    exact .sframe type nr

private theorem uframe_handled (x : Iecsock × σ) (f : Apdu) (type : frameType f.h = .u) :
    Handled hooks x f (iecsockUframeRecv hooks (heardFrame x.1, x.2) f).1
      (iecsockUframeRecv hooks (heardFrame x.1, x.2) f).2 := by
  have refused {func : UframeFunc} (is : uframeFunc f.h = func) (no : refuses x.1 func) :
      Handled hooks x f (-1) (heardFrame x.1, x.2) := .refused type (is ▸ no)
  unfold iecsockUframeRecv
  cases func : uframeFunc f.h with
  | startact =>
    simp only
    split_ifs with side
    · exact refused func side
    · exact .startact type func (not_not.mp side)
  | startcon =>
    simp only
    split_ifs with side
    · exact refused func side
    · exact .startcon type func (not_not.mp side)
  | stopact =>
    simp only
    split_ifs with side
    · exact refused func side
    · exact .stopact type func (not_not.mp side)
  | stopcon =>
    simp only
    split_ifs with side
    · exact refused func side
    · exact .stopcon type func (not_not.mp side)
  | testact =>
    simp only
    split_ifs with quiet
    · exact .testact type func ⟨fun _ => quiet, fun _ => rfl⟩
    · refine .testact type func ⟨?_, fun slave => absurd slave quiet⟩
      intro impossible
      cases impossible
  | testcon =>
    simp only
    split_ifs with armed
    · exact refused func armed
    · exact .testcon type func ((Bool.not_eq_false _).mp armed)

theorem frameRecv_handled (hooks : Iechooks σ) (x : Iecsock × σ) (f : Apdu) :
    Handled hooks x f (iecsockFrameRecv hooks x f).1 (iecsockFrameRecv hooks x f).2 := by
  unfold iecsockFrameRecv
  cases type : frameType f.h with
  | i =>
    simp only
    split_ifs with gate
    · exact .ignored type gate
    · exact iframe_handled x f type gate
  | s => exact sframe_handled x f type
  | u => exact uframe_handled x f type

end Handlers

/-- The two things an application can do to its session. -/
inductive Send : Iecsock → Iecsock → Prop where
  | enqueue (s : Iecsock) (asdu : Asdu) : Send s { s with writeQ := s.writeQ ++ [asduBuf asdu] }
  | transmit (s : Iecsock) {b : IecBuf} {q : List IecBuf} (queue : s.writeQ = b :: q)
      (opened : ¬ s.gated) (room : s.vs ≠ (s.va + s.k) % 32767) :
      Send s (transmitBuf { s with writeQ := q } b)

abbrev Sends := Relation.ReflTransGen Send

theorem Sends.keeps {I : Iecsock → Prop} (one : ∀ s t, I s → Send s t → I t) {s t : Iecsock}
    (sent : Sends s t) (start : I s) : I t := by
  induction sent with
  | refl => exact start
  | tail _ last ih => exact one _ _ ih last

private theorem writeLoop_sends (q : List IecBuf) (s : Iecsock) (queue : s.writeQ = q)
    (opened : ¬ s.gated) : Sends s (writeLoop q s) := by
  induction q generalizing s with
  | nil => exact .refl
  | cons b q ih =>
    unfold writeLoop
    split
    · rename_i room
      have rest := ih (transmitBuf { s with writeQ := q } b) (by simp)
        (by simpa [Iecsock.gated] using opened)
      exact .head (.transmit s queue opened room) rest
    · exact .refl

theorem runWriteQueue_sends (s : Iecsock) : Sends s (iecsockRunWriteQueue s) := by
  unfold iecsockRunWriteQueue
  split
  · exact .refl
  · exact writeLoop_sends _ s rfl ‹_›

theorem exec_sends (x : Station) (call : AppCall) : Sends x.1 (call.exec x).1 := by
  cases call with
  | enqueue asdu => exact .single (.enqueue x.1 asdu)
  | runWriteQueue => exact runWriteQueue_sends x.1

theorem execAll_sends (calls : List AppCall) (x : Station) : Sends x.1 (execAll calls x).1 := by
  induction calls generalizing x with
  | nil => exact .refl
  | cons call calls ih => exact (exec_sends x call).trans (ih (call.exec x))

theorem execAll_delivered (calls : List AppCall) (x : Station) :
    (execAll calls x).2.delivered = x.2.delivered := (execAll_locals calls x).same.delivered

def supervised (s : Iecsock) : Iecsock := if s.va = s.vs then { s with t1Timer := false } else s

theorem supervised_cases (s : Iecsock) :
    (s.va = s.vs ∧ supervised s = { s with t1Timer := false }) ∨
      (s.va ≠ s.vs ∧ supervised s = s) := by
  unfold supervised
  split
  · exact .inl ⟨‹_›, rfl⟩
  · exact .inr ⟨‹_›, rfl⟩

theorem supervised_touches (s : Iecsock) : ∃ t1, supervised s = { s with t1Timer := t1 } := by
  rcases supervised_cases s with ⟨_, same⟩ | ⟨_, same⟩
  · exact ⟨_, same⟩
  · exact ⟨_, same⟩

theorem supervised_va (s : Iecsock) : (supervised s).va = s.va := by
  obtain ⟨_, same⟩ := supervised_touches s
  rw [same]

theorem wakeIfAcked_sends (script : HookScript) (x : Station) :
    Sends (supervised x.1) (wakeIfAcked script.hooks x).1 ∧
      (wakeIfAcked script.hooks x).2.delivered = x.2.delivered := by
  unfold wakeIfAcked supervised
  split
  · exact ⟨execAll_sends script.wakeup (_, x.2), execAll_delivered script.wakeup (_, x.2)⟩
  · exact ⟨.refl, rfl⟩

section Channel

variable {s t : Iecsock}

/-- The channel of `t` is the channel of `s` with frames added that satisfy `P`. -/
def Adds (P : Apdu → Prop) (s t : Iecsock) : Prop :=
  ∃ more, t.output = s.output ++ more ∧ ∀ f ∈ more, P f

theorem Adds.none {P : Apdu → Prop} (same : t.output = s.output) :
    Adds P s t :=
  ⟨[], by rw [same, List.append_nil], by simp⟩

theorem Adds.one {P : Apdu → Prop} {f : Apdu} (added : t.output = s.output ++ [f]) (holds : P f) :
    Adds P s t := by
  refine ⟨[f], added, ?_⟩
  intro g member
  obtain rfl := List.mem_singleton.mp member
  exact holds

theorem Adds.trans {P : Apdu → Prop} {m : Iecsock} (first : Adds P s m) (second : Adds P m t) :
    Adds P s t := by
  obtain ⟨before, grown, holds⟩ := first
  obtain ⟨after, grown', holds'⟩ := second
  refine ⟨before ++ after, by rw [grown', grown, List.append_assoc], ?_⟩
  intro f member
  rcases List.mem_append.mp member with old | new
  · exact holds f old
  · exact holds' f new

theorem Sends.info (sent : Sends s t) (prepared : ∀ b ∈ s.writeQ, frameType b.h = .i) :
    (∀ b ∈ t.writeQ, frameType b.h = .i) ∧ t.vr = s.vr ∧ Adds (fun f => frameType f.h = .i) s t := by
  induction sent with
  | refl => exact ⟨prepared, rfl, Adds.none rfl⟩
  | @tail m t _ last ih =>
    obtain ⟨ready, vr, added⟩ := ih
    cases last with
    | enqueue asdu =>
      refine ⟨?_, vr, added⟩
      intro b member
      rcases List.mem_append.mp member with old | new
      · exact ready b old
      · obtain rfl := List.mem_singleton.mp new
        exact frameType_asduBuf asdu
    | @transmit b q queue opened room =>
      rw [transmitBuf_eq]
      have head : frameType b.h = .i := ready b (by rw [queue]; exact List.mem_cons_self)
      refine ⟨?_, vr, added.trans (Adds.one rfl ?_)⟩
      · intro c member
        exact ready c (by rw [queue]; exact List.mem_cons_of_mem _ member)
      · change frameType ((b.h.setNr m.vr).setNs m.vs) = .i
        rw [frameType_setNs, frameType_setNr]
        exact head

end Channel

/-- Everything one event can do to an endpoint. -/
inductive Outcome (x : Station) : Event → Station → Prop where
  | app {call : AppCall} {y : Station} : Sends x.1 y.1 → y.2.delivered = x.2.delivered →
      Outcome x (.app call) y
  | ignored {f : Apdu} {script : HookScript} : frameType f.h = .i → x.1.gated →
      Outcome x (.recv f script) (heardFrame x.1, x.2)
  | refused {f : Apdu} {script : HookScript} :
      Outcome x (.recv f script) (iecsockClose (heardFrame x.1), x.2)
  | badNs {f : Apdu} {script : HookScript} {s : Iecsock} {log : AppLog} :
      checkNr x.1 f.h.nr = true → Sends (supervised { heardFrame x.1 with va := f.h.nr }) s →
      Outcome x (.recv f script) (iecsockClose { s with t2Timer := true }, log)
  | iframe {f : Apdu} {script : HookScript} {s : Iecsock} {y : Station} : frameType f.h = .i →
      ¬ x.1.gated → checkNr x.1 f.h.nr = true →
      Sends (supervised { heardFrame x.1 with va := f.h.nr }) s →
      Sends (counted s) y.1 → y.2.delivered = x.2.delivered ++ [payload f] →
      Outcome x (.recv f script) y
  | sframe {f : Apdu} {script : HookScript} {y : Station} : frameType f.h = .s →
      checkNr x.1 f.h.nr = true →
      Sends (supervised { iecsockRunAckwQueue (heardFrame x.1) f.h.nr with va := f.h.nr }) y.1 →
      y.2.delivered = x.2.delivered → Outcome x (.recv f script) y
  | startact {f : Apdu} {script : HookScript} {y : Station} : frameType f.h = .u →
      uframeFunc f.h = .startact → x.1.type = .slave →
      Sends (iecsockUframeSend { heardFrame x.1 with stopdt := false } .startcon) y.1 →
      y.2.delivered = x.2.delivered → Outcome x (.recv f script) y
  | startcon {f : Apdu} {script : HookScript} {y : Station} : frameType f.h = .u →
      uframeFunc f.h = .startcon → x.1.type = .master →
      Sends { heardFrame x.1 with t1Timer := false, stopdt := false } y.1 →
      y.2.delivered = x.2.delivered → Outcome x (.recv f script) y
  | stopact {f : Apdu} {script : HookScript} {y : Station} : frameType f.h = .u →
      uframeFunc f.h = .stopact → x.1.type = .slave →
      Sends (iecsockUframeSend { heardFrame x.1 with stopdt := true } .stopcon) y.1 →
      y.2.delivered = x.2.delivered → Outcome x (.recv f script) y
  | stopcon {f : Apdu} {script : HookScript} {y : Station} : frameType f.h = .u →
      uframeFunc f.h = .stopcon → x.1.type = .master →
      Sends { heardFrame x.1 with stopdt := true } y.1 →
      y.2.delivered = x.2.delivered → Outcome x (.recv f script) y
  | testact {f : Apdu} {script : HookScript} {t3 : Bool} : frameType f.h = .u →
      uframeFunc f.h = .testact → (t3 = false ↔ x.1.type = .slave ∧ x.1.testfr = false) →
      Outcome x (.recv f script) ({ iecsockUframeSend x.1 .testcon with t3Timer := t3 }, x.2)
  | testcon {f : Apdu} {script : HookScript} : frameType f.h = .u →
      uframeFunc f.h = .testcon → x.1.testfr = true →
      Outcome x (.recv f script)
        ({ heardFrame x.1 with t1Timer := false, testfr := false }, x.2)
  | t1 : Outcome x .t1 (iecsockClose { x.1 with t1Timer := false }, x.2)
  | t2 : Outcome x .t2 (t2TimerRun { x.1 with t2Timer := false }, x.2)
  | t3 : Outcome x .t3 (t3TimerRun { x.1 with t3Timer := false }, x.2)

theorem recvFrame_outcome (script : HookScript) (x : Station) (f : Apdu) :
    Outcome x (.recv f script) (recvFrame script x f) := by
  have handled := frameRecv_handled script.hooks x f
  unfold recvFrame
  simp only
  generalize (iecsockFrameRecv script.hooks x f).1 = r at handled ⊢
  generalize (iecsockFrameRecv script.hooks x f).2 = y at handled ⊢
  cases handled with
  | ignored type gate => exact .ignored type gate
  | badNr type opened nr => exact .refused
  | badNs type opened nr acked ns =>
    have sent := (wakeIfAcked_sends script ({ heardFrame x.1 with va := f.h.nr }, x.2)).1
    rw [← acked]
    exact .badNs nr sent
  | @iframe m type opened nr acked ns =>
    obtain ⟨sent, delivered⟩ := wakeIfAcked_sends script ({ heardFrame x.1 with va := f.h.nr }, x.2)
    change Sends _ (ackedByIframe script.hooks x f.h.nr).1 at sent
    change (ackedByIframe script.hooks x f.h.nr).2.delivered = _ at delivered
    rw [acked] at sent delivered
    rw [if_pos rfl]
    refine .iframe type opened nr sent (execAll_sends script.data (counted m.1, _)) ?_
    rw [← delivered]
    exact execAll_delivered script.data _
  | sframe type nr =>
    obtain ⟨sent, delivered⟩ := wakeIfAcked_sends script
      ({ iecsockRunAckwQueue (heardFrame x.1) f.h.nr with va := f.h.nr }, x.2)
    exact .sframe type nr sent delivered
  | refused type no => exact .refused
  | startact type func side =>
    refine .startact type func side ?_ (execAll_delivered script.activation _)
    exact (runWriteQueue_sends _).trans (execAll_sends script.activation (_, x.2))
  | startcon type func side =>
    exact .startcon type func side (execAll_sends script.activation (_, x.2))
      (execAll_delivered script.activation _)
  | stopact type func side =>
    exact .stopact type func side (execAll_sends script.deactivation (_, x.2))
      (execAll_delivered script.deactivation _)
  | stopcon type func side =>
    exact .stopcon type func side (execAll_sends script.deactivation (_, x.2))
      (execAll_delivered script.deactivation _)
  | testact type func quiet => exact .testact type func quiet
  | testcon type func armed => exact .testcon type func armed

theorem step_outcome {x y : Station} {e : Event} (h : step x e = some y) : Outcome x e y := by
  cases e with
  | app call =>
    simp only [step] at h
    split at h
    · cases h
    · obtain rfl := Option.some.inj h
      exact .app (exec_sends x call) (exec_locals x call).same.delivered
  | recv f script =>
    simp only [step] at h
    split at h
    · cases h
    · obtain rfl := Option.some.inj h
      exact recvFrame_outcome script x f
  | t1 =>
    simp only [step] at h
    split at h
    · obtain rfl := Option.some.inj h
      exact .t1
    · cases h
  | t2 =>
    simp only [step] at h
    split at h
    · obtain rfl := Option.some.inj h
      exact .t2
    · cases h
  | t3 =>
    simp only [step] at h
    split at h
    · obtain rfl := Option.some.inj h
      exact .t3
    · cases h

/-- The fields that sending does not touch. -/
structure Unsent (s t : Iecsock) : Prop where
  type : t.type = s.type
  stopdt : t.stopdt = s.stopdt
  va : t.va = s.va
  vr : t.vr = s.vr
  closed : t.closed = s.closed

theorem Sends.unsent {s t : Iecsock} (sent : Sends s t) : Unsent s t := by
  refine sent.keeps (I := Unsent s) ?_ ⟨rfl, rfl, rfl, rfl, rfl⟩
  intro m u same last
  cases last with
  | enqueue asdu => exact ⟨same.type, same.stopdt, same.va, same.vr, same.closed⟩
  | transmit queue opened room =>
    rw [transmitBuf_eq]
    exact ⟨same.type, same.stopdt, same.va, same.vr, same.closed⟩

/-- How an event moves the lower edge of the send window. -/
def movedTo (x : Station) : Event → Nat
  | .recv f _ => if frameType f.h = .u ∨ (frameType f.h = .i ∧ x.1.gated) then x.1.va else f.h.nr
  | _ => x.1.va

theorem outcome_va {x y : Station} {e : Event} (outcome : Outcome x e y)
    (opened : y.1.closed = false) : y.1.va = movedTo x e := by
  have control {f : Apdu} (type : frameType f.h = .u) (script : HookScript) :
      movedTo x (.recv f script) = x.1.va := by simp [movedTo, type]
  cases outcome with
  | app sent delivered => exact sent.unsent.va
  | ignored type gate => simp [movedTo, type, gate, heardFrame]
  | refused => cases opened
  | badNs passed sent => cases opened
  | @iframe f _ m _ type gate passed before after delivered =>
    have counted : (counted m).va = m.va := by
      obtain ⟨_, _, same⟩ := counted_touches m
      rw [same]
    rw [after.unsent.va, counted, before.unsent.va, supervised_va]
    simp [movedTo, type, gate]
  | @sframe f _ _ type passed sent delivered =>
    rw [sent.unsent.va, supervised_va]
    simp [movedTo, type]
  | startact type func side sent delivered => exact sent.unsent.va.trans (control type _).symm
  | startcon type func side sent delivered => exact sent.unsent.va.trans (control type _).symm
  | stopact type func side sent delivered => exact sent.unsent.va.trans (control type _).symm
  | stopcon type func side sent delivered => exact sent.unsent.va.trans (control type _).symm
  | testact type func quiet => exact (control type _).symm
  | testcon type func armed => exact (control type _).symm
  | t1 => cases opened
  | t2 => rfl
  | t3 => rfl

theorem closed_stays {x y : Station} {e : Event} (h : step x e = some y)
    (closed : x.1.closed = true) : y.1.closed = true := by
  cases e with
  | app call => simp [step, closed] at h
  | recv f script => simp [step, closed] at h
  | t1 =>
    simp only [step] at h
    split at h
    · obtain rfl := Option.some.inj h
      rfl
    · cases h
  | t2 =>
    simp only [step] at h
    split at h
    · obtain rfl := Option.some.inj h
      exact closed
    · cases h
  | t3 =>
    simp only [step] at h
    split at h
    · obtain rfl := Option.some.inj h
      exact closed
    · cases h

/-- What the events of a run that meet a condition keep of an open session, the run
keeps, each event being taken apart by what it does. -/
theorem open_invariant {C : Station → Event → Prop} {I : Station → Prop}
    (keeps : ∀ x e y, I x → C x e → Outcome x e y → y.1.closed = true ∨ I y)
    {x y : Station} {es : List Event} (start : I x) (meets : Guarded step C x es)
    (reached : run step x es = some y) : y.1.closed = true ∨ I y := by
  refine guarded_invariant (I := fun z => z.1.closed = true ∨ I z) ?_ (.inr start) meets reached
  rintro z e t (closed | inv) meets taken
  · exact .inl (closed_stays taken closed)
  · exact keeps z e t inv meets (step_outcome taken)

/-- An information frame without payload, and a unit of two octets: the peer and
the application of the examples. -/
def bareIframe (ns nr : Nat) : Apdu := ⟨Iechdr.setNs (Iechdr.setNr ⟨0x68, 4, 0, 0, 0, 0⟩ nr) ns, []⟩

def reading : Asdu := ⟨[0x64, 0x01], by decide⟩

end IecUtils.Link.Handling
