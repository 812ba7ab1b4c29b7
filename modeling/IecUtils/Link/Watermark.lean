/- Module: IecUtils/Link/Watermark
   source: iecsock_buffer_read, bufreadcb and connect_writecb of ieclink/iecsock.c
   digest: When the read callback runs, whether every header it starts on is there, and whether the watermark it leaves lets it run again. -/

import IecUtils.Link.Reader

set_option autoImplicit false
set_option relaxedAutoImplicit false

namespace IecUtils.Link.Watermark

open IecUtils.Link.Frame
open IecUtils.Link.Session
open IecUtils.Link.Endpoint
open IecUtils.Link.Reader

section Delivery

variable {σ : Type} (ops : Handlers σ)

/-- The read callback runs on this chunk: the process is alive and the buffered
input reaches the low watermark. -/
def Called (r : ReadState σ) (chunk : List UInt8) : Prop :=
  r.aborted = false ∧ r.watermark ≤ (r.input ++ chunk).length

instance (r : ReadState σ) (chunk : List UInt8) : Decidable (Called r chunk) :=
  inferInstanceAs (Decidable (_ ∧ _))

/-- What libevent does with octets from the socket: append them to the input and
call the read callback once there are enough of them. -/
def deliver (r : ReadState σ) (chunk : List UInt8) : ReadState σ :=
  if Called r chunk then bufreadcb ops { r with input := r.input ++ chunk }
  else { r with input := r.input ++ chunk }

/-- The reader after the chunks have arrived one by one on a new connection. -/
def delivered (session : σ) (chunks : List (List UInt8)) : ReadState σ :=
  chunks.foldl (deliver ops) (ReadState.fresh session)

/-- The octets without which the reader cannot go on. -/
def needed (r : ReadState σ) : Nat := if r.left = 0 then iechdrSize else r.left.toNat

/-- At each arrival that makes the callback run, `P` holds of all octets so far and
of the reader the callback leaves. -/
def AtCallbacks (session : σ) (chunks : List (List UInt8))
    (P : List UInt8 → ReadState σ → Prop) : Prop :=
  ∀ before chunk, before ++ [chunk] <+: chunks → Called (delivered ops session before) chunk →
    P (before ++ [chunk]).flatten (delivered ops session (before ++ [chunk]))

end Delivery

/-- A frame whose header the reader accepts, of the size the header announces. -/
structure WellFormed (f : List UInt8) : Prop where
  start : f.getD 0 0 = 0x68
  shaped : Shaped f
  most : (f.getD 1 0).toNat ≤ iecApduMax

instance (f : List UInt8) : Decidable (WellFormed f) :=
  decidable_of_iff (f.getD 0 0 = 0x68 ∧
      (iec104CtrlLen ≤ (f.getD 1 0).toNat ∧ f.length = (f.getD 1 0).toNat + 2) ∧
      (f.getD 1 0).toNat ≤ iecApduMax)
    ⟨fun h => ⟨h.1, h.2.1, h.2.2⟩, fun h => ⟨h.start, h.shaped, h.most⟩⟩

theorem WellFormed.six_le {f : List UInt8} (h : WellFormed f) : 6 ≤ f.length := by
  obtain ⟨least, size⟩ := h.shaped
  simp only [iec104CtrlLen] at least
  omega

/-- How many of the first `n` octets of a stream lie behind its last whole frame. -/
def surplus : List (List UInt8) → Nat → Nat
  | [], n => n
  | f :: frames, n => if f.length ≤ n then surplus frames (n - f.length) else n

theorem surplus_append (done rest : List (List UInt8)) (n : Nat) :
    surplus (done ++ rest) (done.flatten.length + n) = surplus rest n := by
  induction done with
  | nil => simp
  | cons f done ih =>
    simp only [List.cons_append, List.flatten_cons, List.length_append, surplus]
    rw [if_pos (by omega), show f.length + done.flatten.length + n - f.length =
      done.flatten.length + n by omega]
    exact ih

theorem surplus_of_lt {f : List UInt8} {n : Nat} (short : n < f.length) (frames : List (List UInt8)) :
    surplus (f :: frames) n = n := by
  rw [surplus, if_neg (by omega)]

section Alignment

variable {σ : Type} (ops : Handlers σ) {r : ReadState σ}
  {frames rest : List (List UInt8)} {got octets : List UInt8}

/-- The reader has taken `got` of the first frame of `rest`, and nothing has
aborted it. The watermark of a frame in progress is the one its header set. -/
structure Midway (r : ReadState σ) (rest : List (List UInt8)) (got : List UInt8) : Prop where
  running : r.aborted = false
  idle : r.left = 0 → got = [] ∧ r.watermark ≤ iechdrSize
  busy : r.left ≠ 0 → ∃ f more, rest = f :: more ∧ iechdrSize ≤ got.length ∧
    got.length + r.left.toNat = f.length ∧ r.watermark = f.length - iechdrSize

/-- The octets that arrived are whole frames, the part of the next one in the
session buffer, and the input. -/
def Synced (frames : List (List UInt8)) (octets : List UInt8) (r : ReadState σ) : Prop :=
  ∃ done rest got, frames = done ++ rest ∧ octets = done.flatten ++ (got ++ r.input) ∧
    Midway r rest got

private theorem toNat_pos {x : UInt8} (h : x ≠ 0) : 0 < x.toNat := by
  rcases Nat.eq_zero_or_pos x.toNat with zero | pos
  · exact absurd (UInt8.toNat_inj.mp zero) h
  · exact pos

private theorem next_octets {done : List (List UInt8)} {bytes : List UInt8}
    (sent : done.flatten ++ bytes <+: (done ++ rest).flatten) : bytes <+: rest.flatten := by
  rw [List.flatten_append] at sent
  exact (List.prefix_append_right_inj _).mp sent

private theorem rest_cons {bytes : List UInt8} (some : bytes ≠ []) (sent : bytes <+: rest.flatten) :
    ∃ f more, rest = f :: more := by
  cases rest with
  | nil => exact absurd (List.prefix_nil.mp sent) some
  | cons f more => exact ⟨f, more, rfl⟩

private theorem take_frame {f bytes : List UInt8} {more : List (List UInt8)}
    (sent : bytes <+: (f :: more).flatten) (whole : f.length ≤ bytes.length) :
    bytes.take f.length = f := by
  obtain ⟨later, equal⟩ := sent
  have front : (bytes ++ later).take f.length = f := by
    rw [equal, List.flatten_cons, List.take_left]
  rwa [List.take_append_of_le_length whole] at front

theorem header_octet {i : Nat} (long : iechdrSize ≤ r.input.length) (inside : i < iechdrSize) :
    (store r.buf 0 (r.input.take iechdrSize)).getD i 0 = r.input.getD i 0 := by
  have size : (r.input.take iechdrSize).length = iechdrSize := by
    rw [List.length_take]
    omega
  rw [store, List.take_zero, List.nil_append, List.getD_append _ _ _ _ (by omega),
    List.getD_eq_getElem?_getD, List.getElem?_take, if_pos inside, List.getD_eq_getElem?_getD]

private theorem headerRead_short (short : r.input.length < iechdrSize) :
    (headerRead ops r).aborted = true := by
  have got : (r.input.take iechdrSize).length ≠ iechdrSize := by
    rw [List.length_take]
    omega
  simp only [headerRead, if_pos got]

/-- A good header: the reader now waits for the octets the header announces, and
if there are none, for the next header. -/
private theorem headerRead_good (long : iechdrSize ≤ r.input.length) (good : ¬ badHeader r.input) :
    (headerRead ops r).aborted = r.aborted ∧
      (headerRead ops r).left.toNat = (r.input.getD 1 0).toNat - iec104CtrlLen ∧
      ((headerRead ops r).left = 0 → (headerRead ops r).watermark ≤ iechdrSize) ∧
      ((headerRead ops r).left ≠ 0 →
        (headerRead ops r).watermark = (headerRead ops r).left.toNat) := by
  have got : ¬ (r.input.take iechdrSize).length ≠ iechdrSize := by
    rw [List.length_take]
    omega
  have first := header_octet (i := 0) long (by decide)
  have second := header_octet (i := 1) long (by decide)
  have same : ¬ badHeader (store r.buf 0 (r.input.take iechdrSize)) := by
    simpa only [badHeader, first, second] using good
  simp only [badHeader, iecApduMin, not_or, not_lt] at good
  have left := toNat_sub_control good.2.1
  simp only [headerRead, if_neg got, if_neg same, second]
  split_ifs with last ret
  · rw [last] at left
    exact ⟨rfl, left, fun _ => le_rfl, fun more => absurd rfl more⟩
  · refine ⟨rfl, left, ?_, fun _ => rfl⟩
    intro _
    show (r.input.getD 1 0 - 4).toNat ≤ iechdrSize
    rw [last]
    exact Nat.zero_le _
  · exact ⟨rfl, left, fun none => absurd none last, fun _ => rfl⟩

private theorem bodyRead_left :
    (bodyRead ops r).aborted = r.aborted ∧
      (bodyRead ops r).input = r.input.drop r.left.toNat ∧
      (bodyRead ops r).left.toNat = r.left.toNat - r.input.length ∧
      (bodyRead ops r).watermark =
        if r.left.toNat ≤ r.input.length then iechdrSize else r.watermark := by
  have left : (r.left - UInt8.ofNat (r.input.take r.left.toNat).length).toNat =
      r.left.toNat - r.input.length := by
    rw [toNat_sub_taken, List.length_take]
    omega
  have ended : r.left - UInt8.ofNat (r.input.take r.left.toNat).length = 0 ↔
      r.left.toNat ≤ r.input.length := by
    rw [← UInt8.toNat_inj, left, UInt8.toNat_zero]
    omega
  simp only [bodyRead]
  by_cases enough : r.left.toNat ≤ r.input.length
  · have zero := ended.mpr enough
    simp only [zero, ne_eq, not_true_eq_false, if_false, if_pos enough]
    refine ⟨?_, ?_, ?_, trivial⟩
    · split_ifs <;> rfl
    · split_ifs <;> rfl
    · rw [UInt8.toNat_zero]
      omega
  · have more : r.left - UInt8.ofNat (r.input.take r.left.toNat).length ≠ 0 := by
      rwa [ne_eq, ended]
    simp only [if_pos more, if_neg enough]
    exact ⟨trivial, trivial, left, trivial⟩

/-- Reading a header keeps the reader in step with the stream, unless the input
ends inside the header. -/
private theorem header_synced (wellFormed : ∀ f ∈ frames, WellFormed f)
    (sent : octets <+: frames.flatten) (h : Synced frames octets r) (waiting : r.left = 0)
    (some : r.input ≠ []) :
    ((headerRead ops r).aborted = true ∧ 0 < surplus frames octets.length ∧
      surplus frames octets.length < iechdrSize) ∨ Synced frames octets (headerRead ops r) := by
  obtain ⟨done, rest, got, rfl, rfl, midway⟩ := h
  obtain ⟨rfl, _⟩ := midway.idle waiting
  have sent' := next_octets sent
  rw [List.nil_append] at sent' ⊢
  obtain ⟨f, more, rfl⟩ := rest_cons some sent'
  have good := wellFormed f (by simp)
  have six := good.six_le
  rcases Nat.lt_or_ge r.input.length iechdrSize with short | long
  · left
    have pos := List.length_pos_iff.mpr some
    have lt : r.input.length < f.length := Nat.lt_of_lt_of_le short six
    rw [List.length_append, surplus_append, surplus_of_lt lt]
    exact ⟨headerRead_short ops short, pos, short⟩
  · right
    -- the header of the input is the header of the next frame
    have octet {i : Nat} (inside : i < iechdrSize) : r.input.getD i 0 = f.getD i 0 := by
      obtain ⟨later, equal⟩ := sent'
      have ahead := congrArg (fun bytes => bytes.getD i 0) equal
      simp only [List.flatten_cons] at ahead
      rwa [List.getD_append _ _ _ _ (by omega),
        List.getD_append _ _ _ _ (Nat.lt_of_lt_of_le inside six)] at ahead
    have first := octet (i := 0) (by decide)
    have second := octet (i := 1) (by decide)
    obtain ⟨least, size⟩ := good.shaped
    have fine : ¬ badHeader r.input := by
      simp only [badHeader, first, second, not_or, not_lt, not_not]
      exact ⟨good.start, least, good.most⟩
    obtain ⟨alive, left, slack, mark⟩ := headerRead_good ops long fine
    have input := headerRead_input ops r
    rw [second] at left
    simp only [iec104CtrlLen, iechdrSize] at least left input long
    by_cases last : (headerRead ops r).left = 0
    · -- a frame without a body is done with its header
      have whole : f.length = 6 := by
        rw [last, UInt8.toNat_zero] at left
        omega
      have frame := take_frame sent' (by omega)
      have cut := List.take_append_drop f.length r.input
      rw [frame, whole] at cut
      refine ⟨done ++ [f], more, [], by simp, ?_, ?_⟩
      · rw [input, List.nil_append, List.flatten_append, List.append_assoc, List.flatten_singleton,
          cut]
      · exact ⟨alive.trans midway.running, fun _ => ⟨rfl, slack last⟩, fun busy => absurd last busy⟩
    · refine ⟨done, f :: more, r.input.take 6, rfl, ?_, ?_⟩
      · rw [input, List.take_append_drop]
      · have taken : (r.input.take 6).length = 6 := by
          rw [List.length_take]
          omega
        refine ⟨alive.trans midway.running, fun idle => absurd idle last, fun _ => ?_⟩
        refine ⟨f, more, rfl, by rw [taken, iechdrSize], by omega, ?_⟩
        rw [mark last, iechdrSize]
        omega

private theorem body_synced (sent : octets <+: frames.flatten) (h : Synced frames octets r)
    (partly : r.left ≠ 0) : Synced frames octets (bodyRead ops r) := by
  obtain ⟨done, rest, got, rfl, rfl, midway⟩ := h
  obtain ⟨f, more, rfl, begun, size, mark⟩ := midway.busy partly
  obtain ⟨alive, input, left, marked⟩ := bodyRead_left ops (r := r)
  have pos := toNat_pos partly
  by_cases enough : r.left.toNat ≤ r.input.length
  · rw [if_pos enough] at marked
    have ended : (bodyRead ops r).left = 0 := by
      rw [← UInt8.toNat_inj, left, UInt8.toNat_zero]
      omega
    have frame := take_frame (next_octets sent) (by simp; omega)
    rw [← size, List.take_length_add_append] at frame
    refine ⟨done ++ [f], more, [], by simp, ?_, ?_⟩
    · rw [input, ← frame]
      simp
    · refine ⟨alive.trans midway.running, fun _ => ⟨rfl, ?_⟩, fun busy => absurd ended busy⟩
      rw [marked]
  · rw [if_neg enough] at marked
    have none : (bodyRead ops r).input = [] := by
      rw [input]
      exact List.drop_eq_nil_of_le (by omega)
    have going : (bodyRead ops r).left ≠ 0 := by
      rw [ne_eq, ← UInt8.toNat_inj, left, UInt8.toNat_zero]
      omega
    refine ⟨done, f :: more, got ++ r.input, rfl, by rw [none, List.append_nil], ?_⟩
    refine ⟨alive.trans midway.running, fun idle => absurd idle going, fun _ => ?_⟩
    refine ⟨f, more, rfl, ?_, ?_, marked.trans mark⟩
    · rw [List.length_append]
      omega
    · rw [List.length_append, left]
      omega

/-- The loop of the callback either stops at a header that is cut short, or ends
in step with the stream. -/
private theorem loop_synced (wellFormed : ∀ f ∈ frames, WellFormed f)
    (sent : octets <+: frames.flatten) (fuel : Nat) (h : Synced frames octets r) :
    ((readLoop ops fuel r).aborted = true ∧ 0 < surplus frames octets.length ∧
      surplus frames octets.length < iechdrSize) ∨ Synced frames octets (readLoop ops fuel r) := by
  induction fuel generalizing r with
  | zero => exact .inr h
  | succ fuel ih =>
    unfold readLoop
    split
    · exact .inr h
    · rename_i going
      obtain ⟨some, _⟩ := not_or.mp going
      unfold iecsockBufferRead
      split
      · rename_i waiting
        rcases header_synced ops wellFormed sent h waiting some with broken | synced
        · left
          have stopped : readLoop ops fuel (headerRead ops r) = headerRead ops r := by
            cases fuel with
            | zero => rfl
            | succ fuel => rw [readLoop, if_pos (.inr broken.1)]
          rw [stopped]
          exact broken
        · exact ih synced
      · exact ih (body_synced ops sent h ‹_›)

private theorem Synced.surplus_eq (wellFormed : ∀ f ∈ frames, WellFormed f)
    (h : Synced frames octets r) (none : r.input = []) :
    (r.left = 0 ∧ surplus frames octets.length = 0 ∧ r.watermark ≤ iechdrSize) ∨
      (r.left ≠ 0 ∧ iechdrSize ≤ surplus frames octets.length ∧
        r.watermark + iechdrSize = surplus frames octets.length + r.left.toNat) := by
  obtain ⟨done, rest, got, rfl, rfl, midway⟩ := h
  rw [none, List.append_nil, List.length_append, surplus_append]
  by_cases waiting : r.left = 0
  · left
    obtain ⟨rfl, slack⟩ := midway.idle waiting
    refine ⟨waiting, ?_, slack⟩
    cases rest with
    | nil => rfl
    | cons f more =>
      have six := (wellFormed f (by simp)).six_le
      apply surplus_of_lt
      rw [List.length_nil]
      omega
  · right
    obtain ⟨f, more, rfl, begun, size, mark⟩ := midway.busy waiting
    have pos := toNat_pos waiting
    rw [surplus_of_lt (by omega)]
    exact ⟨waiting, begun, by omega⟩

end Alignment

section Runs

variable {σ : Type} (ops : Handlers σ) (session : σ) {frames : List (List UInt8)}

private theorem delivered_snoc (before : List (List UInt8)) (chunk : List UInt8) :
    delivered ops session (before ++ [chunk]) = deliver ops (delivered ops session before) chunk := by
  simp [delivered]

private theorem fresh_synced : Synced frames [] (ReadState.fresh session) := by
  refine ⟨[], frames, [], rfl, rfl, ?_⟩
  exact ⟨rfl, fun _ => ⟨rfl, le_rfl⟩, fun busy => absurd rfl busy⟩

private theorem Synced.arrive {octets : List UInt8} {r : ReadState σ} (h : Synced frames octets r)
    (chunk : List UInt8) : Synced frames (octets ++ chunk) { r with input := r.input ++ chunk } := by
  obtain ⟨done, rest, got, split, octets, midway⟩ := h
  refine ⟨done, rest, got, split, by rw [octets]; simp, ?_⟩
  exact ⟨midway.running, midway.idle, midway.busy⟩

private theorem deliver_synced (wellFormed : ∀ f ∈ frames, WellFormed f) {octets : List UInt8}
    {r : ReadState σ} {chunk : List UInt8} (sent : octets ++ chunk <+: frames.flatten)
    (h : Synced frames octets r) :
    (Called r chunk ∧ (deliver ops r chunk).aborted = true ∧
        0 < surplus frames (octets ++ chunk).length ∧
        surplus frames (octets ++ chunk).length < iechdrSize) ∨
      (Synced frames (octets ++ chunk) (deliver ops r chunk) ∧
        (Called r chunk → (deliver ops r chunk).input = [])) := by
  have arrived := h.arrive chunk
  unfold deliver
  split
  · rename_i called
    rcases loop_synced ops wellFormed sent (r.input ++ chunk).length arrived
      with broken | synced
    · exact .inl ⟨called, broken⟩
    · refine .inr ⟨synced, fun _ => ?_⟩
      obtain ⟨_, _, _, _, _, midway⟩ := synced
      rcases bufreadcb_drains ops { r with input := r.input ++ chunk } with drained | aborted
      · exact drained
      · exact absurd (midway.running.symm.trans aborted) (by decide)
  · rename_i waiting
    exact .inr ⟨arrived, fun called => absurd called waiting⟩

private theorem alive_before {r : ReadState σ} {chunk : List UInt8}
    (alive : (deliver ops r chunk).aborted = false) : r.aborted = false := by
  cases dead : r.aborted with
  | false => rfl
  | true =>
    have skipped : ¬ Called r chunk := by simp [Called, dead]
    rw [deliver, if_neg skipped] at alive
    exact dead.symm.trans alive

private theorem delivered_synced (wellFormed : ∀ f ∈ frames, WellFormed f)
    {chunks : List (List UInt8)} (sent : chunks.flatten <+: frames.flatten)
    (alive : (delivered ops session chunks).aborted = false) :
    Synced frames chunks.flatten (delivered ops session chunks) := by
  induction chunks using List.reverseRecOn with
  | nil => exact fresh_synced session
  | append_singleton before chunk ih =>
    rw [List.flatten_append, List.flatten_singleton] at sent ⊢
    rw [delivered_snoc] at alive ⊢
    have synced := ih ((List.prefix_append _ _).trans sent) (alive_before ops alive)
    rcases deliver_synced ops wellFormed sent synced with ⟨_, dead, _⟩ | ⟨next, _⟩
    · exact absurd (alive.symm.trans dead) (by decide)
    · exact next

/-- One callback on a stream of well-formed frames: the assertion fails exactly when
the octets end inside a header; otherwise the watermark it leaves is stale
exactly when they end inside a body. -/
private theorem callback_outcome (wellFormed : ∀ f ∈ frames, WellFormed f)
    {before : List (List UInt8)} {chunk : List UInt8}
    (sent : (before ++ [chunk]).flatten <+: frames.flatten)
    (called : Called (delivered ops session before) chunk) :
    let r := delivered ops session (before ++ [chunk])
    let beyond := surplus frames (before ++ [chunk]).flatten.length
    (r.aborted = true ∧ 0 < beyond ∧ beyond < iechdrSize) ∨
      (r.aborted = false ∧ r.input = [] ∧ (r.watermark ≤ needed r ↔ beyond ≤ iechdrSize) ∧
        ¬ (0 < beyond ∧ beyond < iechdrSize)) := by
  intro r beyond
  have octets : (before ++ [chunk]).flatten = before.flatten ++ chunk := by simp
  have synced := delivered_synced ops session wellFormed
    (((List.prefix_append _ _).trans (octets ▸ sent))) called.1
  have now : r = deliver ops (delivered ops session before) chunk := delivered_snoc ops session _ _
  rcases deliver_synced ops wellFormed (octets ▸ sent) synced with ⟨_, dead, low, high⟩ | ⟨next, empty⟩
  · left
    simp only [beyond, octets]
    exact ⟨now ▸ dead, low, high⟩
  · right
    rw [← now, ← octets] at next
    have none : r.input = [] := now ▸ empty called
    have place := next.surplus_eq wellFormed none
    obtain ⟨_, _, _, _, _, midway⟩ := next
    refine ⟨midway.running, none, ?_⟩
    change (r.left = 0 ∧ beyond = 0 ∧ r.watermark ≤ iechdrSize) ∨
      (r.left ≠ 0 ∧ iechdrSize ≤ beyond ∧ r.watermark + iechdrSize = beyond + r.left.toNat) at place
    rcases place with ⟨idle, zero, slack⟩ | ⟨busy, begun, mark⟩
    · rw [needed, if_pos idle]
      refine ⟨⟨fun _ => by omega, fun _ => slack⟩, by omega⟩
    · rw [needed, if_neg busy]
      refine ⟨⟨fun _ => by omega, fun _ => by omega⟩, by omega⟩

/-- On every stream of well-formed frames and every chunking of it, the callbacks
that return leave a watermark the missing octets can reach exactly when none of
them runs with the stream cut behind the sixth octet of a frame. -/
theorem watermark_reachable_iff (wellFormed : ∀ f ∈ frames, WellFormed f)
    {chunks : List (List UInt8)} (sent : chunks.flatten <+: frames.flatten) :
    AtCallbacks ops session chunks
        (fun _ r => r.aborted = false → r.input = [] → r.watermark ≤ needed r) ↔
      AtCallbacks ops session chunks
        (fun octets _ => surplus frames octets.length ≤ iechdrSize) := by
  have callback {before : List (List UInt8)} {chunk : List UInt8}
      (inside : before ++ [chunk] <+: chunks)
      (called : Called (delivered ops session before) chunk) :=
    callback_outcome ops session wellFormed (inside.flatten.trans sent) called
  constructor
  · intro fresh before chunk inside called
    rcases callback inside called with ⟨_, _, short⟩ | ⟨alive, none, mark, _⟩
    · exact short.le
    · exact mark.mp (fresh before chunk inside called alive none)
  · intro cut before chunk inside called alive none
    rcases callback inside called with ⟨dead, _⟩ | ⟨_, _, mark, _⟩
    · exact absurd (alive.symm.trans dead) (by decide)
    · exact mark.mpr (cut before chunk inside called)

private theorem atCallbacks_take {chunks : List (List UInt8)} {P : List UInt8 → ReadState σ → Prop}
    (holds : ∀ n, (short : n < chunks.length) →
      Called (delivered ops session (chunks.take n)) chunks[n] →
        P (chunks.take (n + 1)).flatten (delivered ops session (chunks.take (n + 1)))) :
    AtCallbacks ops session chunks P := by
  rintro before chunk ⟨later, rfl⟩ called
  have now := holds before.length (by simp)
  simpa [List.take_append, List.take_of_length_le, called] using now

/-- A test frame and two information frames. The first segment is no header yet, the second ends
with the second header, the third stays below the watermark, and the last ends with the stream. -/
theorem watermark_reachable_chunks :
    let frames : List (List UInt8) := [[0x68, 4, 0x43, 0, 0, 0],
      [0x68, 14, 0, 0, 0, 0, 1, 2, 3, 4, 5, 6, 7, 8, 9, 10],
      [0x68, 8, 2, 0, 0, 0, 1, 2, 3, 4]]
    let chunks : List (List UInt8) := [[0x68, 4, 0x43, 0], [0, 0, 0x68, 14, 0, 0, 0, 0],
      [1, 2, 3, 4], [5, 6, 7, 8, 9, 10, 0x68, 8, 2, 0, 0, 0, 1, 2, 3, 4]]
    (∀ f ∈ frames, WellFormed f) ∧ chunks.flatten <+: frames.flatten ∧
      AtCallbacks (iecsockHandlers { }) (Iecsock.fresh .master, AppLog.empty) chunks
        (fun _ r => r.aborted = false → r.input = [] → r.watermark ≤ needed r) := by
  intro frames chunks
  have wellFormed : ∀ f ∈ frames, WellFormed f := by decide
  have sent : chunks.flatten <+: frames.flatten := by decide
  refine ⟨wellFormed, sent, ?_⟩
  apply (watermark_reachable_iff _ _ wellFormed sent).mpr
  apply atCallbacks_take
  decide

/-- An information frame of sixteen octets cut after the eighth: the callback has
taken them all and waits for eight more, and the watermark stays at ten. -/
theorem watermark_stale_inside_body :
    let frame : List UInt8 := [0x68, 14, 0, 0, 0, 0, 1, 2, 3, 4, 5, 6, 7, 8, 9, 10]
    let start : Station := (Iecsock.fresh .master, AppLog.empty)
    (∀ f ∈ [frame], WellFormed f) ∧ [frame.take 8].flatten <+: [frame].flatten ∧
      ¬ AtCallbacks (iecsockHandlers { }) start [frame.take 8]
        (fun _ r => r.aborted = false → r.input = [] → r.watermark ≤ needed r) ∧
      ¬ Called (delivered (iecsockHandlers { }) start [frame.take 8]) (frame.drop 8) := by
  intro frame start
  refine ⟨?_, by decide, ?_, by decide⟩
  · intro f member
    obtain rfl := List.mem_singleton.mp member
    decide
  · intro fresh
    have mark := fresh [] (frame.take 8) List.prefix_rfl (by decide) (by decide) (by decide)
    revert mark
    decide

/-- On every stream of well-formed frames and every chunking of it, no header read
fails its assertion exactly when no callback runs with the stream cut inside the
header of a frame. -/
theorem assertion_holds_iff (wellFormed : ∀ f ∈ frames, WellFormed f)
    {chunks : List (List UInt8)} (sent : chunks.flatten <+: frames.flatten) :
    (delivered ops session chunks).aborted = false ↔
      AtCallbacks ops session chunks (fun octets _ =>
        ¬ (0 < surplus frames octets.length ∧ surplus frames octets.length < iechdrSize)) := by
  induction chunks using List.reverseRecOn with
  | nil =>
    refine ⟨fun _ before chunk inside _ => ?_, fun _ => rfl⟩
    exact absurd (List.prefix_nil.mp inside) (by simp)
  | append_singleton chunks last ih =>
    have before := ih ((List.prefix_append _ _).flatten.trans sent)
    constructor
    · intro alive earlier chunk inside called
      rcases List.prefix_concat_iff.mp inside with whole | part
      · obtain ⟨rfl, same⟩ := List.append_inj' whole rfl
        obtain rfl := List.singleton_inj.mp same
        rcases callback_outcome ops session wellFormed sent called with ⟨dead, _⟩ | ⟨_, _, _, fine⟩
        · exact absurd (alive.symm.trans dead) (by decide)
        · exact fine
      · rw [delivered_snoc] at alive
        exact before.mp (alive_before ops alive) earlier chunk part called
    · intro fine
      have running := before.mpr fun earlier chunk inside called =>
        fine earlier chunk (inside.trans (List.prefix_append _ _)) called
      by_cases called : Called (delivered ops session chunks) last
      · rcases callback_outcome ops session wellFormed sent called with ⟨_, short⟩ | ⟨alive, _⟩
        · exact absurd short (fine chunks last List.prefix_rfl called)
        · exact alive
      · rw [delivered_snoc, deliver, if_neg called]
        exact running

/-- The first segment ends in a header, but the callback does not run; the next two in bodies. -/
theorem assertion_holds_chunks :
    let frames : List (List UInt8) := [[0x68, 14, 0, 0, 0, 0, 1, 2, 3, 4, 5, 6, 7, 8, 9, 10],
      [0x68, 4, 0x43, 0, 0, 0], [0x68, 8, 2, 0, 0, 0, 1, 2, 3, 4]]
    let chunks : List (List UInt8) := [[0x68, 14, 0], [0, 0, 0, 1, 2, 3],
      [4, 5, 6, 7, 8, 9, 10, 0x68, 4, 0x43, 0, 0, 0, 0x68, 8, 2, 0, 0, 0, 1], [2, 3, 4]]
    (∀ f ∈ frames, WellFormed f) ∧ chunks.flatten <+: frames.flatten ∧
      (delivered (iecsockHandlers { }) (Iecsock.fresh .master, AppLog.empty) chunks).aborted =
        false := by
  intro frames chunks
  have wellFormed : ∀ f ∈ frames, WellFormed f := by decide
  have sent : chunks.flatten <+: frames.flatten := by decide
  refine ⟨wellFormed, sent, ?_⟩
  apply (assertion_holds_iff _ _ wellFormed sent).mpr
  apply atCallbacks_take
  decide

/-- Two test frames of which eight octets arrive in one segment: the loop starts on
the second header with two octets of it there. -/
theorem assertion_fails_inside_header :
    let frame : List UInt8 := [0x68, 4, 0x43, 0, 0, 0]
    (∀ f ∈ [frame, frame], WellFormed f) ∧
      [frame ++ frame.take 2].flatten <+: [frame, frame].flatten ∧
      ¬ (delivered (iecsockHandlers { }) (Iecsock.fresh .master, AppLog.empty)
        [frame ++ frame.take 2]).aborted = false := by
  intro frame
  refine ⟨?_, by decide, by decide⟩
  intro f member
  have same : f = frame := by simpa using member
  subst same
  decide

end Runs

end IecUtils.Link.Watermark
