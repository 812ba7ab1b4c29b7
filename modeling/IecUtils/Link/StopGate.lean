/- Module: IecUtils/Link/StopGate
   source: iecsock_run_write_queue and iecsock_uframe_recv of ieclink/iecsock.c, iec_kick_callback and activation_hook of ieclink/ieclink.c
   digest: Nothing gates the masters of ieclink: what has to stay away while stopdt is set. -/

import IecUtils.Link.Confirm

set_option autoImplicit false
set_option relaxedAutoImplicit false

namespace IecUtils.Link.StopGate

open IecUtils.Foundation.Transition
open IecUtils.Link.Frame
open IecUtils.Link.Session
open IecUtils.Link.Endpoint
open IecUtils.Link.Handling
open IecUtils.Link.Ieclink
open IecUtils.Link.Confirm

def WritesInfo (s t : Iecsock) : Prop :=
  ∃ more, t.output = s.output ++ more ∧ ∃ f ∈ more, frameType f.h = .i

/-- No step writes an information frame with `stopdt` set before or behind it. -/
def Respects (x : Process) (e : LinkEvent) : Prop :=
  ∀ y, linkStep x e = some y → x.1.stopdt = true ∨ y.1.stopdt = true → ¬ WritesInfo x.1 y.1

/-- `iecsock_run_write_queue` is called with a buffer: a line of standard input ends while the
window has room, or a frame acknowledges everything sent while units wait in `asdulist`. -/
def Releases (x : Process) : LinkEvent → Prop
  | .stdin chunks =>
      x.2.user = .pending ∧ iecsockCanQueue x.1 ≠ 0 ∧ 10 ∈ x.2.rbuf ++ chunks.flatten
  | .recv f => x.2.asdulist ≠ [] ∧ frameType f.h ≠ .u ∧ f.h.nr = x.1.vs
  | _ => False

instance (x : Process) : ∀ e, Decidable (Releases x e)
  | .stdin _ => inferInstanceAs (Decidable (_ ∧ _ ∧ _))
  | .recv _ => inferInstanceAs (Decidable (_ ∧ _ ∧ _))
  | .badHeader | .t1 | .t2 | .t3 | .error | .connect => isFalse not_false

def HeldBack (x : Process) (e : LinkEvent) : Prop := x.1.stopdt = true → ¬ Releases x e

instance (x : Process) (e : LinkEvent) : Decidable (HeldBack x e) :=
  inferInstanceAs (Decidable (_ → _))

abbrev Silent (s t : Iecsock) : Prop := Adds (fun f => frameType f.h ≠ .i) s t

private theorem not_writesInfo {s t : Iecsock} (adds : Silent s t) : ¬ WritesInfo s t := by
  rintro ⟨more, grown, f, member, info⟩
  obtain ⟨others, same, none⟩ := adds
  rw [grown] at same
  obtain rfl := List.append_cancel_left same
  exact none f member info

section Stdin

variable {x : Process}

private theorem lineLoop_open {pbuf : List UInt8} (noLine : 10 ∉ pbuf) (fuel : Nat) :
    lineLoop fuel pbuf x = (some pbuf, x) := by
  cases fuel with
  | zero => rfl
  | succ fuel => rw [lineLoop, if_neg noLine]

private theorem stdinRead_open {chunks : List (List UInt8)} (noLine : 10 ∉ x.2.rbuf)
    (later : ∀ chunk ∈ chunks, 10 ∉ chunk) : (stdinRead chunks x).1 = x.1 := by
  induction chunks generalizing x with
  | nil => rfl
  | cons chunk chunks ih =>
    obtain ⟨now, later⟩ := List.forall_mem_cons.mp later
    rw [stdinRead]
    dsimp only
    split
    · rfl
    · have got : 10 ∉ x.2.rbuf ++ chunk.take (rbufSize - x.2.rbuf.length) := by
        rw [List.mem_append, not_or]
        exact ⟨noLine, fun member => now (List.mem_of_mem_take member)⟩
      rw [lineLoop_open got]
      dsimp only
      split
      · rfl
      · refine ih ?_ later
        dsimp only
        split
        · exact List.not_mem_nil
        · exact got

private theorem full_keeps {s : Iecsock} (full : iecsockCanQueue s = 0) :
    LineInvariant fun y => y.1 = s where
  buffers _ _ _ _ same := same
  accept y asdu same := by
    unfold acceptAsdu
    dsimp only
    rw [same, if_neg (not_not.mpr full)]

private theorem stdin_silent {chunks : List (List UInt8)} (pending : x.2.user = .pending)
    (held : ¬ Releases x (.stdin chunks)) :
    (stdinRead chunks (x.1, { x.2 with user := .idle })).1 = x.1 := by
  unfold Releases at held
  by_cases full : iecsockCanQueue x.1 = 0
  · exact stdinRead_keeps (full_keeps full) (x := (x.1, { x.2 with user := .idle })) chunks rfl
  · have noLine : 10 ∉ x.2.rbuf ++ chunks.flatten := fun line => held ⟨pending, full, line⟩
    rw [List.mem_append, not_or, List.mem_flatten] at noLine
    exact stdinRead_open (x := (x.1, { x.2 with user := .idle })) noLine.1
      fun chunk member inside => noLine.2 ⟨chunk, member, inside⟩

private theorem stdin_stopdt (stopdt : Bool) : LineInvariant fun y => y.1.stopdt = stopdt where
  buffers _ _ _ _ h := h
  accept x asdu h := by
    unfold acceptAsdu
    dsimp only
    split
    · exact (iecAsduSend_sends (x.1, { x.2 with accepted := x.2.accepted ++ [asdu] })
        asdu).unsent.stopdt.trans h
    · exact h

end Stdin

section Frames

variable {x y : Process}

/-- A frame that acknowledges everything wakes the application, which sends what waits in the
list. -/
private theorem acked_silent {f : Apdu} {s : Iecsock} (bearing : frameType f.h ≠ .u)
    (va : s.va = f.h.nr) (vs : s.vs = x.1.vs) (output : s.output = x.1.output)
    (held : ¬ Releases x (.recv f)) :
    (wakeIfAcked defaultHooks (s, x.2)).1.output = x.1.output := by
  unfold wakeIfAcked
  split
  · rename_i acked
    have empty : x.2.asdulist = [] := by
      by_contra some
      exact held ⟨some, bearing, va.symm.trans (acked.trans vs)⟩
    change (iecKickCallback (t1TimerStop s, x.2)).1.output = _
    rw [iecKickCallback_session, empty]
    exact output
  · exact output

private theorem wake_stopdt (x : Process) : (wakeIfAcked defaultHooks x).1.stopdt = x.1.stopdt := by
  unfold wakeIfAcked
  split
  · change (iecKickCallback (t1TimerStop x.1, x.2)).1.stopdt = _
    rw [iecKickCallback_session]
    exact (kickLoop_sends _ _).1.unsent.stopdt
  · rfl

private theorem counted_silent (s : Iecsock) :
    Silent s (counted s) ∧ (counted s).stopdt = s.stopdt := by
  rcases counted_cases s with ⟨_, same⟩ | ⟨_, same⟩
  · rw [same]
    refine ⟨Adds.one rfl ?_, rfl⟩
    rw [frameType_sframeHdr]
    decide
  · rw [same]
    exact ⟨Adds.none rfl, rfl⟩

private theorem handled_silent {f : Apdu} {r : Int} (master : x.1.type = .master)
    (handled : Handled defaultHooks x f r y) :
    (¬ Releases x (.recv f) → Silent x.1 y.1) ∧
      (frameType f.h ≠ .u → y.1.stopdt = x.1.stopdt) := by
  cases handled with
  | ignored type gate => exact ⟨fun _ => Adds.none rfl, fun _ => rfl⟩
  | badNr type opened nr => exact ⟨fun _ => Adds.none rfl, fun _ => rfl⟩
  | @badNs m type opened nr acked ns =>
    have flag := wake_stopdt ({ heardFrame x.1 with va := f.h.nr }, x.2)
    subst acked
    refine ⟨fun held => ?_, fun _ => flag⟩
    exact Adds.none (acked_silent (s := { heardFrame x.1 with va := f.h.nr }) (by simp [type])
      rfl rfl rfl held)
  | @iframe m type opened nr acked ns =>
    have flag := wake_stopdt ({ heardFrame x.1 with va := f.h.nr }, x.2)
    subst acked
    obtain ⟨answered, same⟩ := counted_silent (ackedByIframe defaultHooks x f.h.nr).1
    refine ⟨fun held => Adds.trans (Adds.none ?_) answered, fun _ => same.trans flag⟩
    exact acked_silent (s := { heardFrame x.1 with va := f.h.nr }) (by simp [type]) rfl rfl rfl held
  | sframe type nr =>
    have flag := wake_stopdt
      ({ iecsockRunAckwQueue (heardFrame x.1) f.h.nr with va := f.h.nr }, x.2)
    refine ⟨fun held => Adds.none ?_, fun _ => flag⟩
    exact acked_silent (by simp [type]) rfl rfl rfl held
  | refused type no => exact ⟨fun _ => Adds.none rfl, fun _ => rfl⟩
  | startact type func side => exact absurd (master.symm.trans side) (by decide)
  | startcon type func side => exact ⟨fun _ => Adds.none rfl, fun other => absurd type other⟩
  | stopact type func side => exact absurd (master.symm.trans side) (by decide)
  | stopcon type func side => exact ⟨fun _ => Adds.none rfl, fun other => absurd type other⟩
  | testact type func quiet =>
    refine ⟨fun _ => Adds.one rfl ?_, fun other => absurd type other⟩
    rw [frameType_uframeHdr]
    decide
  | testcon type func armed => exact ⟨fun _ => Adds.none rfl, fun other => absurd type other⟩

end Frames

section Runs

variable {x y : Process} {e : LinkEvent}

private theorem frame_respects {f : Apdu} {r : Int} (master : x.1.type = .master)
    (handled : Handled defaultHooks x f r y) (held : HeldBack x (.recv f))
    (stopped : x.1.stopdt = true ∨ y.1.stopdt = true) : Silent x.1 y.1 := by
  obtain ⟨silent, flag⟩ := handled_silent master handled
  by_cases released : Releases x (.recv f)
  · have same := flag released.2.1
    rw [same, or_self] at stopped
    exact absurd released (held stopped)
  · exact silent released

theorem linkStep_respects (master : x.1.type = .master) (held : HeldBack x e) : Respects x e := by
  intro y happens stopped writes
  refine not_writesInfo ?_ writes
  cases linkStep_outcome happens with
  | connect closed =>
    obtain ⟨more, grown, f, member, info⟩ := writes
    have shown : f ∈ x.1.output ++ more := List.mem_append_right _ member
    rw [← grown] at shown
    obtain rfl := List.mem_singleton.mp shown
    exact absurd info (by decide)
  | @stdin chunks opened pending =>
    have same := stdinRead_keeps (stdin_stopdt x.1.stopdt) (x := (x.1, { x.2 with user := .idle }))
      chunks rfl
    rw [same, or_self] at stopped
    exact Adds.none (congrArg Iecsock.output (stdin_silent pending (held stopped)))
  | accepted opened handled => exact frame_respects master handled held stopped
  | @rejected f r z opened bad handled =>
    exact frame_respects (y := z) master handled held stopped
  | badHeader opened => exact Adds.none rfl
  | t1 opened => exact Adds.none rfl
  | t2 opened =>
    refine Adds.one rfl ?_
    rw [frameType_sframeHdr]
    decide
  | t3 opened =>
    refine Adds.one rfl ?_
    rw [frameType_uframeHdr]
    decide
  | error opened => exact Adds.none rfl

/-- In every run without these calls. -/
theorem stopdt_respected {es : List LinkEvent} (held : Guarded linkStep HeldBack linkStart es) :
    Guarded linkStep Respects linkStart es := by
  refine guarded_of_invariant (I := Kept) ?_ ?_ linkStart_kept held
  · exact fun _ _ _ kept happens => linkStep_kept kept happens
  · exact fun _ _ kept meets => linkStep_respects kept.1.master meets

def lines (count : Nat) : List UInt8 := (List.replicate count [54, 52, 10]).flatten

/-- A unit is sent and acknowledged between STARTDT con and STOPDT con. -/
theorem stopdt_respected_unit : Guarded linkStep Respects linkStart
    [.recv ⟨uframeHdr .startcon, []⟩, .stdin [lines 1], .recv ⟨sframeHdr 1, []⟩,
      .recv ⟨uframeHdr .stopcon, []⟩, .recv ⟨sframeHdr 1, []⟩] :=
  stopdt_respected (by decide +kernel)

/-- Of twenty-five units thirteen are left in the list when the connection fails. -/
def carriedOver : List LinkEvent :=
  [.recv ⟨uframeHdr .startcon, []⟩, .stdin [lines 25], .error, .connect]

set_option maxRecDepth 4000

/-- The list goes out on the next connection, in front of STARTDT con. -/
theorem stopdt_ignored_carriedOver :
    (∃ x y, run linkStep linkStart carriedOver = some x ∧
      linkStep x (.recv ⟨sframeHdr 0, []⟩) = some y ∧ x.1.stopdt = true ∧ y.1.stopdt = true ∧
        y.2.crashed = false ∧ WritesInfo x.1 y.1) ∧
      ¬ ∀ es, Guarded linkStep Respects linkStart es := by
  obtain ⟨x, y, reached, happens, before, behind, alive, writes⟩ : ∃ x y,
      run linkStep linkStart carriedOver = some x ∧
        linkStep x (.recv ⟨sframeHdr 0, []⟩) = some y ∧ x.1.stopdt = true ∧ y.1.stopdt = true ∧
          y.2.crashed = false ∧ WritesInfo x.1 y.1 :=
    ⟨_, _, rfl, rfl, rfl, rfl, rfl, _, rfl, _, List.mem_cons_self, by decide⟩
  refine ⟨⟨x, y, reached, happens, before, behind, alive, writes⟩, fun all => ?_⟩
  have last := guarded_last (all (carriedOver ++ [.recv ⟨sframeHdr 0, []⟩])) reached
  exact last y happens (.inl before) writes

end Runs

end IecUtils.Link.StopGate
