/- Module: IecUtils/Link/Teardown
   source: iecsock_buffer_read, bufreadcb and iecsock_close of ieclink/iecsock.c
   digest: What the reader still does with a session that it has closed for a protocol error. -/

import IecUtils.Link.Reader

set_option autoImplicit false
set_option relaxedAutoImplicit false

namespace IecUtils.Link.Teardown

open IecUtils.Link.Frame
open IecUtils.Link.Session
open IecUtils.Link.Endpoint
open IecUtils.Link.Reader

/-- A use of the session: one of the reader's fields, the call of `frame_recv`, which works
on the counters, or the pointer to the `bufferevent`. -/
inductive Access where
  | left
  | len
  | buf
  | frameRecv
  | io
  deriving DecidableEq

/-- The reader under observation: whether `iecsock_close` was called, the uses of the
session since then, and the states in which `iecsock_buffer_read` found it open. -/
structure Watch (σ : Type) where
  r : ReadState σ
  closed : Bool
  accesses : List Access
  turns : List (ReadState σ)

def Watch.fresh {σ : Type} (session : σ) : Watch σ := ⟨ReadState.fresh session, false, [], []⟩

section Observation

variable {σ : Type} (ops : Handlers σ)

def Watch.use (w : Watch σ) (uses : List Access) (r : ReadState σ) : Watch σ :=
  { w with r := r, accesses := if w.closed then w.accesses ++ uses else w.accesses }

def Watch.close (w : Watch σ) : Watch σ :=
  { w with r := { w.r with session := ops.iecsockClose w.r.session }, closed := true }

/-- `headerRead` under observation. -/
def watchHeader (w : Watch σ) : Watch σ :=
  let got := w.r.input.take iechdrSize
  let w := w.use [.io, .buf]
    { w.r with buf := store w.r.buf 0 got, input := w.r.input.drop iechdrSize }
  if got.length ≠ iechdrSize then w.use [] { w.r with aborted := true, sound := false }
  else
    let w := w.use [.buf] w.r
    let w := if badHeader w.r.buf then (w.use [] { w.r with sound := false }).close ops else w
    let w := w.use [.buf, .left, .len] { w.r with left := w.r.buf.getD 1 0 - 4, len := 6 }
    if w.r.left = 0 then
      let ret := (dispatch ops w.r).1
      let w := w.use [.left, .frameRecv] (dispatch ops w.r).2
      if ret = 0 then
        w.use [.left, .len, .io] { w.r with left := 0, len := 0, watermark := iechdrSize }
      else (w.use [.io] { w.r with watermark := w.r.left.toNat }).close ops
    else w.use [.left, .io] { w.r with watermark := w.r.left.toNat }

/-- `bodyRead` under observation. -/
def watchBody (w : Watch σ) : Watch σ :=
  let got := w.r.input.take w.r.left.toNat
  let w := w.use [.io, .buf, .len, .left]
    { w.r with
      buf := store w.r.buf w.r.len.toNat got
      input := w.r.input.drop w.r.left.toNat
      left := w.r.left - UInt8.ofNat got.length
      len := w.r.len + UInt8.ofNat got.length }
  if w.r.left ≠ 0 then w.use [.left] w.r
  else
    let ret := (dispatch ops w.r).1
    let w := w.use [.left, .frameRecv] (dispatch ops w.r).2
    let w := if ret ≠ 0 then w.close ops else w
    w.use [.left, .len, .io] { w.r with left := 0, len := 0, watermark := iechdrSize }

/-- `iecsock_buffer_read` looks at `left` first. -/
def Watch.enter (w : Watch σ) : Watch σ :=
  { w.use [.left] w.r with turns := if w.closed then w.turns else w.turns ++ [w.r] }

def watchRead (w : Watch σ) : Watch σ :=
  if w.r.left = 0 then watchHeader ops w.enter else watchBody ops w.enter

/-- The loop of `bufreadcb`; its condition looks at the input through `io`. -/
def watchLoop : Nat → Watch σ → Watch σ
  | 0, w => w.use [.io] w.r
  | fuel + 1, w =>
      let w := w.use [.io] w.r
      if w.r.input = [] ∨ w.r.aborted then w else watchLoop fuel (watchRead ops w)

/-- `iecsock_close` frees the `bufferevent`, so no callback runs after it. -/
def watchStep (w : Watch σ) (e : ReadEvent) : Watch σ :=
  if w.closed then w
  else
    match e with
    | .arrive chunk => w.use [] { w.r with input := w.r.input ++ chunk }
    | .readcb => if w.r.aborted then w else watchLoop ops w.r.input.length w

def watchRun (session : σ) (es : List ReadEvent) : Watch σ :=
  es.foldl (watchStep ops) (Watch.fresh session)

def Untouched (w : Watch σ) : Prop := ∀ a ∈ w.accesses, a = .io

/-- Reading from an open session in this state cannot go wrong: a header is not rejected,
`frame_recv` takes a frame that is longer than its header, and one that is not it rejects
only if nothing is behind it. -/
def Harmless (r : ReadState σ) : Prop :=
  if r.left = 0 then
    iechdrSize ≤ r.input.length →
      ¬ badHeader (store r.buf 0 (r.input.take iechdrSize)) ∧
        ((store r.buf 0 (r.input.take iechdrSize)).getD 1 0 = 4 →
          (ops.frameRecv (store r.buf 0 (r.input.take iechdrSize)) 6 r.session).1 ≠ 0 →
            r.input.length = iechdrSize)
  else
    r.left.toNat ≤ r.input.length →
      (ops.frameRecv (store r.buf r.len.toNat (r.input.take r.left.toNat)) (r.len + r.left)
        r.session).1 = 0

end Observation

section Erasure

variable {σ : Type} (ops : Handlers σ) (w : Watch σ)

@[simp] theorem Watch.use_r (uses : List Access) (r : ReadState σ) : (w.use uses r).r = r := rfl

@[simp] theorem Watch.close_r :
    (w.close ops).r = { w.r with session := ops.iecsockClose w.r.session } := rfl

theorem watchHeader_r : (watchHeader ops w).r = headerRead ops w.r := by
  unfold watchHeader headerRead
  by_cases short : (w.r.input.take iechdrSize).length ≠ iechdrSize
  · simp only [if_pos short]
    rfl
  · by_cases bad : badHeader (store w.r.buf 0 (w.r.input.take iechdrSize))
    · simp only [short, Watch.use_r, bad, Watch.close_r, if_true, if_false]
      split
      · split
        · rfl
        · rfl
      · rfl
    · simp only [short, Watch.use_r, bad, if_false]
      split
      · split
        · rfl
        · rfl
      · rfl

theorem watchBody_r : (watchBody ops w).r = bodyRead ops w.r := by
  unfold watchBody bodyRead Watch.close Watch.use
  simp only
  split_ifs <;> rfl

theorem watchRead_r : (watchRead ops w).r = iecsockBufferRead ops w.r := by
  unfold watchRead iecsockBufferRead
  split
  · exact watchHeader_r ops _
  · exact watchBody_r ops _

theorem watchLoop_succ (fuel : Nat) :
    watchLoop ops (fuel + 1) w =
      if w.r.input = [] ∨ w.r.aborted then w.use [.io] w.r
      else watchLoop ops fuel (watchRead ops (w.use [.io] w.r)) :=
  rfl

theorem watchLoop_r (fuel : Nat) : (watchLoop ops fuel w).r = readLoop ops fuel w.r := by
  induction fuel generalizing w with
  | zero => rfl
  | succ fuel ih =>
    rw [watchLoop_succ, readLoop]
    split
    · rfl
    · rw [ih, watchRead_r]
      rfl

theorem watchStep_r (e : ReadEvent) (isOpen : w.closed = false) :
    (watchStep ops w e).r = readStep ops w.r e := by
  unfold watchStep
  rw [if_neg (by rw [isOpen]; decide)]
  cases e with
  | arrive chunk => rfl
  | readcb =>
    simp only [readStep]
    split
    · rfl
    · exact watchLoop_r ops w _

end Erasure

section Turns

variable {σ : Type} {ops : Handlers σ} {w : Watch σ}

/-- What one turn does to a session that is open before it. -/
inductive Turned (ops : Handlers σ) (r : ReadState σ) (before : List Access) (w : Watch σ) : Prop
  | kept (closed : w.closed = false) (same : w.accesses = before) (harmless : Harmless ops r)
  | ended (closed : w.closed = true) (same : w.accesses = before)
      (living : w.r.aborted = r.aborted) (harmless : Harmless ops r ↔ w.r.input = [])
  | slipped (closed : w.closed = true) (touched : Access.left ∈ w.accesses)
      (harmful : ¬ Harmless ops r)

private theorem harmless_header (ops : Handlers σ) {r : ReadState σ} (waiting : r.left = 0) :
    Harmless ops r ↔ (iechdrSize ≤ r.input.length →
      ¬ badHeader (store r.buf 0 (r.input.take iechdrSize)) ∧
        ((store r.buf 0 (r.input.take iechdrSize)).getD 1 0 = 4 →
          (ops.frameRecv (store r.buf 0 (r.input.take iechdrSize)) 6 r.session).1 ≠ 0 →
            r.input.length = iechdrSize)) := by
  rw [Harmless, if_pos waiting]

theorem header_turned (isOpen : w.closed = false) (waiting : w.r.left = 0) :
    Turned ops w.r w.accesses (watchHeader ops w) := by
  by_cases whole : (w.r.input.take iechdrSize).length = iechdrSize
  · have length : iechdrSize ≤ w.r.input.length := by
      rw [List.length_take] at whole
      omega
    have condition := harmless_header ops waiting
    rw [forall_prop_of_true length] at condition
    unfold watchHeader Watch.close Watch.use
    simp only [whole, ne_eq, not_true_eq_false, if_false, isOpen]
    by_cases bad : badHeader (store w.r.buf 0 (w.r.input.take iechdrSize))
    · -- `left` and `len` are set whatever the header says
      simp only [if_pos bad]
      split_ifs <;> exact .slipped rfl (by simp) fun harmless => (condition.mp harmless).1 bad
    · simp only [if_neg bad]
      by_cases short : (store w.r.buf 0 (w.r.input.take iechdrSize)).getD 1 0 - 4 = 0
      · have four : (store w.r.buf 0 (w.r.input.take iechdrSize)).getD 1 0 = 4 :=
          UInt8.sub_eq_iff_eq_add.mp short
        rw [if_pos short]
        split
        · rename_i taken
          refine .kept rfl rfl (condition.mpr ⟨bad, fun _ rejected => absurd taken rejected⟩)
        · rename_i rejected
          refine .ended rfl rfl rfl (condition.trans ⟨?_, ?_⟩)
          · rintro ⟨_, last⟩
            exact List.drop_eq_nil_of_le (by rw [last four rejected])
          · intro none
            have most := List.drop_eq_nil_iff.mp none
            exact ⟨bad, fun _ _ => Nat.le_antisymm most length⟩
      · rw [if_neg short]
        refine .kept rfl rfl (condition.mpr ⟨bad, fun four => ?_⟩)
        rw [four] at short
        exact absurd rfl short
  · have length : ¬ iechdrSize ≤ w.r.input.length := by
      rw [List.length_take] at whole
      omega
    unfold watchHeader Watch.use
    simp only [whole, ne_eq, not_false_eq_true, if_true, isOpen]
    exact .kept rfl rfl ((harmless_header ops waiting).mpr fun enough => absurd enough length)

theorem body_turned (isOpen : w.closed = false) (partly : w.r.left ≠ 0) :
    Turned ops w.r w.accesses (watchBody ops w) := by
  have condition : Harmless ops w.r ↔ (w.r.left.toNat ≤ w.r.input.length →
      (ops.frameRecv (store w.r.buf w.r.len.toNat (w.r.input.take w.r.left.toNat))
        (w.r.len + w.r.left) w.r.session).1 = 0) := by
    rw [Harmless, if_neg partly]
  have left := toNat_sub_taken w.r.left w.r.input
  have taken := List.length_take (i := w.r.left.toNat) (l := w.r.input)
  unfold watchBody Watch.close Watch.use
  simp only [isOpen, Bool.false_eq_true, if_false]
  by_cases whole : w.r.left.toNat ≤ w.r.input.length
  · rw [forall_prop_of_true whole] at condition
    have all : UInt8.ofNat (w.r.input.take w.r.left.toNat).length = w.r.left := by
      rw [taken, Nat.min_eq_left whole, UInt8.ofNat_toNat]
    simp only [all, UInt8.sub_self, ne_eq, not_true_eq_false, if_false]
    split
    · -- the reset of `left` and `len` comes behind the call of `iecsock_close`
      rename_i rejected
      exact .slipped rfl (by simp) fun harmless => rejected (condition.mp harmless)
    · rename_i accepted
      exact .kept rfl rfl (condition.mpr (not_not.mp accepted))
  · have more : w.r.left - UInt8.ofNat (w.r.input.take w.r.left.toNat).length ≠ 0 := by
      intro none
      rw [none, taken] at left
      simp only [UInt8.toNat_zero] at left
      omega
    rw [if_pos more]
    exact .kept rfl rfl (condition.mpr fun enough => absurd enough whole)

theorem read_turned (isOpen : w.closed = false) :
    Turned ops w.r w.accesses (watchRead ops w) := by
  have same : w.enter.accesses = w.accesses := by
    simp [Watch.enter, Watch.use, isOpen]
  unfold watchRead
  split
  · rename_i waiting
    have turned : Turned ops w.r w.enter.accesses (watchHeader ops w.enter) :=
      header_turned (w := w.enter) isOpen waiting
    rwa [same] at turned
  · rename_i partly
    have turned : Turned ops w.r w.enter.accesses (watchBody ops w.enter) :=
      body_turned (w := w.enter) isOpen partly
    rwa [same] at turned

private theorem header_keeps {P : Watch σ → Prop} (use : ∀ v uses r, P v → P (Watch.use v uses r))
    (close : ∀ v, P v → P (v.close ops)) (start : P w) : P (watchHeader ops w) := by
  unfold watchHeader
  extract_lets _ _ read _ looked _ checked _ counted _ handed
  have first : P read := use _ _ _ start
  have second : P looked := use _ _ _ first
  have third : P checked := by
    unfold checked
    split
    · exact close _ (use _ _ _ second)
    · exact second
  have fourth : P counted := use _ _ _ third
  have fifth : P handed := use _ _ _ fourth
  split
  · exact use _ _ _ first
  · split
    · split
      · exact use _ _ _ fifth
      · exact close _ (use _ _ _ fifth)
    · exact use _ _ _ fourth

private theorem body_keeps {P : Watch σ → Prop} (use : ∀ v uses r, P v → P (Watch.use v uses r))
    (close : ∀ v, P v → P (v.close ops)) (start : P w) : P (watchBody ops w) := by
  unfold watchBody
  extract_lets _ _ read _ handed closed
  have first : P read := use _ _ _ start
  have second : P handed := use _ _ _ first
  have third : P closed := by
    unfold closed
    split
    · exact close _ second
    · exact second
  split
  · exact use _ _ _ first
  · exact use _ _ _ third

theorem read_keeps {P : Watch σ → Prop} (use : ∀ v uses r, P v → P (Watch.use v uses r))
    (close : ∀ v, P v → P (v.close ops)) (start : P w.enter) : P (watchRead ops w) := by
  unfold watchRead
  split
  · exact header_keeps use close start
  · exact body_keeps use close start

theorem watchRead_turns :
    (watchRead ops w).turns = if w.closed then w.turns else w.turns ++ [w.r] :=
  read_keeps (P := fun v => v.turns = if w.closed then w.turns else w.turns ++ [w.r])
    (fun _ _ _ same => same) (fun _ same => same) rfl

theorem use_keeps {a : Access} (member : a ∈ w.accesses) (uses : List Access) (r : ReadState σ) :
    a ∈ (w.use uses r).accesses := by
  unfold Watch.use
  dsimp only
  split
  · exact List.mem_append_left _ member
  · exact member

theorem watchRead_looks (closed : w.closed = true) : Access.left ∈ (watchRead ops w).accesses := by
  have entered : Access.left ∈ w.enter.accesses := by
    simp [Watch.enter, Watch.use, closed]
  exact read_keeps (P := fun v => Access.left ∈ v.accesses)
    (fun _ uses r member => use_keeps member uses r) (fun _ member => member) entered

theorem watchRead_closed (closed : w.closed = true) : (watchRead ops w).closed = true :=
  read_keeps (P := fun v => v.closed = true) (fun _ _ _ still => still) (fun _ _ => rfl) closed

end Turns

section Runs

variable {σ : Type} {ops : Handlers σ} {w : Watch σ}

/-- Between callbacks the fields of the closed session were left alone exactly if every
turn was harmless, and nothing counts as a use while the session is open. -/
structure Accounted (ops : Handlers σ) (w : Watch σ) : Prop where
  unused : w.closed = false → w.accesses = []
  exactly : Untouched w ↔ ∀ r ∈ w.turns, Harmless ops r

/-- The loop of `bufreadcb` goes no further with a closed session. -/
def Settled (w : Watch σ) : Prop := w.closed = true → w.r.input = [] ∨ w.r.aborted = true

/-- The same in the middle of a callback, where harm done may still have to show. -/
structure Pending (ops : Handlers σ) (w : Watch σ) : Prop where
  unused : w.closed = false → w.accesses = []
  exactly : Untouched w ∧ Settled w ↔ ∀ r ∈ w.turns, Harmless ops r

theorem untouched_io : Untouched (w.use [.io] w.r) ↔ Untouched w := by
  unfold Untouched
  constructor
  · intro only a member
    exact only a (use_keeps member _ _)
  · intro only a member
    unfold Watch.use at member
    dsimp only at member
    split at member
    · rcases List.mem_append.mp member with old | new
      · exact only a old
      · exact List.mem_singleton.mp new
    · exact only a member

theorem Pending.io (h : Pending ops w) : Pending ops (w.use [.io] w.r) where
  unused isOpen := by
    have still : w.closed = false := isOpen
    simp only [Watch.use, still, Bool.false_eq_true, if_false]
    exact h.unused still
  exactly := by
    rw [untouched_io]
    exact h.exactly

private theorem pending_open (h : Pending ops w) (isOpen : w.closed = false)
    (alive : w.r.aborted = false) : Pending ops (watchRead ops w) := by
  have before := h.unused isOpen
  have earlier : ∀ r ∈ w.turns, Harmless ops r := by
    refine h.exactly.mp ⟨?_, fun closed => absurd closed (by rw [isOpen]; decide)⟩
    rw [Untouched, before]
    exact fun a member => absurd member List.not_mem_nil
  have all : (∀ r ∈ (watchRead ops w).turns, Harmless ops r) ↔ Harmless ops w.r := by
    rw [watchRead_turns, isOpen]
    simp only [Bool.false_eq_true, if_false, List.mem_append, List.mem_singleton]
    exact ⟨fun every => every w.r (Or.inr rfl),
      fun last r member => member.elim (earlier r) fun same => same ▸ last⟩
  have clean (same : (watchRead ops w).accesses = w.accesses) : Untouched (watchRead ops w) := by
    rw [Untouched, same, before]
    exact fun a member => absurd member List.not_mem_nil
  have turned : Turned ops w.r w.accesses (watchRead ops w) := read_turned isOpen
  cases turned with
  | kept closed same harmless =>
    refine ⟨fun _ => same.trans before, iff_of_true ⟨clean same, ?_⟩ (all.mpr harmless)⟩
    intro impossible
    rw [closed] at impossible
    cases impossible
  | ended closed same living harmless =>
    refine ⟨fun _ => same.trans before, ?_⟩
    rw [all, harmless]
    constructor
    · rintro ⟨_, settled⟩
      refine (settled closed).resolve_right ?_
      rw [living, alive]
      decide
    · intro none
      exact ⟨clean same, fun _ => Or.inl none⟩
  | slipped closed touched harmful =>
    have dirty : ¬ Untouched (watchRead ops w) := fun only => absurd (only _ touched) (by decide)
    refine ⟨fun isOpen => ?_,
      iff_of_false (fun both => dirty both.1) fun every => harmful (all.mp every)⟩
    rw [closed] at isOpen
    cases isOpen

private theorem pending_closed (h : Pending ops w) (closed : w.closed = true)
    (going : ¬ (w.r.input = [] ∨ w.r.aborted = true)) : Pending ops (watchRead ops w) := by
  have turns : (watchRead ops w).turns = w.turns := by
    rw [watchRead_turns, closed]
    rfl
  have harmful : ¬ ∀ r ∈ w.turns, Harmless ops r := by
    rw [← h.exactly]
    exact fun both => going (both.2 closed)
  refine ⟨fun isOpen => ?_, iff_of_false ?_ (turns ▸ harmful)⟩
  · rw [watchRead_closed closed] at isOpen
    cases isOpen
  · rintro ⟨only, _⟩
    exact absurd (only _ (watchRead_looks closed)) (by decide)

private theorem pending_loop (h : Pending ops w) (fuel : Nat) :
    Pending ops (watchLoop ops fuel w) := by
  induction fuel generalizing w with
  | zero => exact h.io
  | succ fuel ih =>
    rw [watchLoop_succ]
    split
    · exact h.io
    · rename_i going
      have alive : w.r.aborted = false := by simpa using (not_or.mp going).2
      apply ih
      cases state : w.closed with
      | false => exact pending_open h.io state alive
      | true => exact pending_closed h.io state going

theorem accounted_step (h : Accounted ops w) (e : ReadEvent) :
    Accounted ops (watchStep ops w e) := by
  unfold watchStep
  split
  · exact h
  · rename_i running
    have isOpen : w.closed = false := by simpa using running
    cases e with
    | arrive chunk =>
      have same : (w.use [] { w.r with input := w.r.input ++ chunk }).accesses = w.accesses := by
        simp [Watch.use]
      refine ⟨fun _ => same.trans (h.unused isOpen), ?_⟩
      rw [Untouched, same]
      exact h.exactly
    | readcb =>
      dsimp only
      split
      · exact h
      · have start : Pending ops w := by
          refine ⟨h.unused, Iff.trans (and_iff_left ?_) h.exactly⟩
          exact fun closed => absurd closed running
        have last := pending_loop start w.r.input.length
        have drained : Settled (watchLoop ops w.r.input.length w) := by
          intro _
          rw [watchLoop_r]
          exact bufreadcb_drains ops w.r
        exact ⟨last.unused, Iff.trans (and_iff_left drained).symm last.exactly⟩

theorem accounted_run (h : Accounted ops w) (es : List ReadEvent) :
    Accounted ops (es.foldl (watchStep ops) w) := by
  induction es generalizing w with
  | nil => exact h
  | cons e es ih => exact ih (accounted_step h e)

/-- For every octet stream, however it is chunked, and every `frame_recv`: the fields and
counters of the session are left alone once it is closed exactly if every call of
`iecsock_buffer_read` on the open session was harmless. -/
theorem closed_untouched_iff (ops : Handlers σ) (session : σ) (es : List ReadEvent) :
    Untouched (watchRun ops session es) ↔
      ∀ r ∈ (watchRun ops session es).turns, Harmless ops r := by
  have start : Accounted ops (Watch.fresh session) :=
    ⟨fun _ => rfl, iff_of_true (fun _ member => absurd member List.not_mem_nil)
      fun _ member => absurd member List.not_mem_nil⟩
  exact (accounted_run start es).exactly

/-- A header without the start octet, of the length of a frame without body: the session
is closed, then `left` and `len` are set and the header is handed to `frame_recv`. -/
theorem rejected_header_dispatched :
    let w := watchRun (iecsockHandlers {}) (Iecsock.fresh .slave, AppLog.empty)
      [.arrive [0x00, 4, 0x43, 0, 0, 0], .readcb]
    w.closed = true ∧ Access.left ∈ w.accesses ∧ Access.frameRecv ∈ w.accesses ∧ ¬ Untouched w := by
  refine ⟨by decide, by decide, by decide, ?_⟩
  intro only
  exact absurd (only .left (by decide)) (by decide)

theorem watchLoop_io (fuel : Nat) (closed : (watchLoop ops fuel w).closed = true) :
    Access.io ∈ (watchLoop ops fuel w).accesses := by
  have looks {v : Watch σ} (closed : v.closed = true) : Access.io ∈ (v.use [.io] v.r).accesses := by
    simp [Watch.use, closed]
  induction fuel generalizing w with
  | zero => exact looks closed
  | succ fuel ih =>
    rw [watchLoop_succ] at closed ⊢
    split
    · rename_i done
      rw [if_pos done] at closed
      exact looks closed
    · rename_i going
      rw [if_neg going] at closed
      exact ih closed

end Runs

end IecUtils.Link.Teardown
