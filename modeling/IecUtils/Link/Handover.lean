/- Module: IecUtils/Link/Handover
   source: iecsock_buffer_read and bufreadcb of ieclink/iecsock.c
   digest: The reader hands over a frame, however its octets arrive between the callbacks. -/

import IecUtils.Link.Watermark

set_option autoImplicit false
set_option relaxedAutoImplicit false

namespace IecUtils.Link.Handover

open IecUtils.Link.Frame
open IecUtils.Link.Session
open IecUtils.Link.Reader
open IecUtils.Link.Watermark (header_octet)

section Reading

variable {σ : Type} (ops : Handlers σ) {start : σ} {f got : List UInt8} {r : ReadState σ}

/-- A frame with a body, as the reader accepts it. -/
structure Bodied (f : List UInt8) : Prop where
  good : Watermark.WellFormed f
  body : 6 < f.length

/-- The reader has not yet handed over the frame, of which `got` has arrived. -/
structure Held (start : σ) (f got : List UInt8) (r : ReadState σ) : Prop where
  running : r.aborted = false
  session : r.session = start
  calls : r.calls = []
  room : r.buf.length = iec104BufLen
  part : got <+: f
  idle : r.left = 0 → r.len = 0 ∧ r.input = got
  busy : r.left ≠ 0 → 6 ≤ r.len.toNat ∧ r.len.toNat + r.left.toNat = f.length ∧
    r.buf.take r.len.toNat ++ r.input = got

/-- The reader has handed over the frame and waits for the next one. -/
structure Handed (start : σ) (f : List UInt8) (r : ReadState σ) : Prop where
  running : r.aborted = false
  input : r.input = []
  call : ∃ buf len clean, r.calls = [⟨buf, len, clean⟩] ∧ buf.take f.length = f ∧
    ((ops.frameRecv buf len start).1 = 0 ∧ r.session = (ops.frameRecv buf len start).2 ∨
      (ops.frameRecv buf len start).1 ≠ 0 ∧
        r.session = ops.iecsockClose (ops.frameRecv buf len start).2)

theorem header_held (frame : Bodied f) (held : Held start f got r) (waiting : r.left = 0)
    (long : 6 ≤ r.input.length) :
    Held start f got (headerRead ops r) ∧ (headerRead ops r).left ≠ 0 := by
  obtain ⟨len, input⟩ := held.idle waiting
  obtain ⟨later, whole⟩ := held.part
  have body := frame.body
  obtain ⟨least, size⟩ := frame.good.shaped
  have room := held.room
  rw [iec104BufLen] at room
  have octet {i : Nat} (inside : i < 6) : r.input.getD i 0 = f.getD i 0 := by
    rw [← whole, input, List.getD_append _ _ _ _ (by rw [← input]; omega)]
  have six : (r.input.take iechdrSize).length = 6 := by
    rw [List.length_take, iechdrSize]
    omega
  have first : (store r.buf 0 (r.input.take iechdrSize)).getD 0 0 = f.getD 0 0 := by
    rw [header_octet long (by decide), octet (by omega)]
  have second : (store r.buf 0 (r.input.take iechdrSize)).getD 1 0 = f.getD 1 0 := by
    rw [header_octet long (by decide), octet (by omega)]
  have fine : ¬ badHeader (store r.buf 0 (r.input.take iechdrSize)) := by
    simp only [badHeader, first, second, not_or, not_lt, not_not]
    exact ⟨frame.good.start, least, frame.good.most⟩
  have left := toNat_sub_control least
  simp only [iec104CtrlLen] at left least
  have more : f.getD 1 0 - 4 ≠ 0 := by
    rw [ne_eq, ← UInt8.toNat_inj, left, UInt8.toNat_zero]
    omega
  have stored := take_store (r.input.take iechdrSize) (Nat.zero_le r.buf.length)
  rw [six] at stored
  simp only [headerRead]
  rw [if_neg (by rw [six]; decide), if_neg fine]
  simp only [second, if_neg more]
  refine ⟨⟨held.running, held.session, held.calls, ?_, held.part,
    fun none => absurd none more, ?_⟩, more⟩
  · rw [length_store (by omega)]
    exact held.room
  · intro _
    refine ⟨le_rfl, ?_, ?_⟩
    · change 6 + (f.getD 1 0 - 4).toNat = f.length
      omega
    · change (store r.buf 0 (r.input.take iechdrSize)).take 6 ++ r.input.drop iechdrSize = got
      rw [show (6 : Nat) = 0 + 6 from rfl, stored, List.take_zero, List.nil_append,
        List.take_append_drop, input]

theorem Held.body_counts (frame : Bodied f) (held : Held start f got r) (partly : r.left ≠ 0) :
    r.len.toNat + r.input.length = got.length ∧
      (r.len + UInt8.ofNat r.input.length).toNat = got.length ∧
      (store r.buf r.len.toNat r.input).length = iec104BufLen ∧
        (store r.buf r.len.toNat r.input).take got.length = got := by
  obtain ⟨header, short, octets⟩ := held.busy partly
  obtain ⟨least, size⟩ := frame.good.shaped
  have most := frame.good.most
  have room := held.room
  simp only [iecApduMax, iec104BufLen] at most room
  have part := held.part.length_le
  have inside : r.len.toNat ≤ r.buf.length := by omega
  have lengths : r.len.toNat + r.input.length = got.length := by
    rw [← octets, List.length_append, List.length_take]
    omega
  have len : (r.len + UInt8.ofNat r.input.length).toNat = got.length := by
    rw [UInt8.toNat_add, UInt8.toNat_ofNat']
    omega
  have stored := take_store r.input inside
  rw [octets, lengths] at stored
  refine ⟨lengths, len, ?_, stored⟩
  rw [length_store (by omega)]
  exact held.room

theorem body_held (frame : Bodied f) (held : Held start f got r) (partly : r.left ≠ 0) :
    (Held start f got (bodyRead ops r) ∧ (bodyRead ops r).input = [] ∧ (bodyRead ops r).left ≠ 0) ∨
      (got = f ∧ Handed ops start f (bodyRead ops r)) := by
  obtain ⟨header, short, octets⟩ := held.busy partly
  obtain ⟨lengths, len, kept, stored⟩ := held.body_counts frame partly
  have part := held.part.length_le
  have all : r.input.take r.left.toNat = r.input := List.take_of_length_le (by omega)
  have none : r.input.drop r.left.toNat = [] := List.drop_eq_nil_of_le (by omega)
  have left := toNat_sub_taken r.left r.input
  rw [all] at left
  simp only [bodyRead, all, none]
  by_cases more : r.left - UInt8.ofNat r.input.length = 0
  · right
    rw [more, UInt8.toNat_zero] at left
    have arrived : got = f := held.part.eq_of_length (by omega)
    rw [arrived] at stored
    have running := held.running
    have session := held.session
    rw [if_neg (not_not.mpr more)]
    refine ⟨arrived, ?_, ?_, store r.buf r.len.toNat r.input,
      r.len + UInt8.ofNat r.input.length, r.sound, ?_, stored, ?_⟩
    · split_ifs <;> exact running
    · split_ifs <;> rfl
    · simp only [Reader.dispatch, held.calls, List.nil_append]
      split_ifs <;> rfl
    · simp only [Reader.dispatch, session]
      split_ifs with failed
      · exact .inr ⟨failed, rfl⟩
      · exact .inl ⟨not_not.mp failed, rfl⟩
  · left
    rw [if_pos more]
    refine ⟨⟨held.running, held.session, held.calls, kept, held.part,
      fun none => absurd none more, ?_⟩, rfl, more⟩
    intro _
    refine ⟨?_, ?_, ?_⟩
    · change 6 ≤ (r.len + UInt8.ofNat r.input.length).toNat
      omega
    · change (r.len + UInt8.ofNat r.input.length).toNat +
        (r.left - UInt8.ofNat r.input.length).toNat = f.length
      omega
    · rw [← len] at stored
      simpa using stored

theorem readLoop_held (frame : Bodied f) (held : Held start f got r)
    (whole : r.left = 0 → r.input ≠ [] → 6 ≤ r.input.length) (fuel : Nat)
    (enough : r.input.length ≤ fuel) :
    (Held start f got (readLoop ops fuel r) ∧ (readLoop ops fuel r).input = []) ∨
      (got = f ∧ Handed ops start f (readLoop ops fuel r)) := by
  induction fuel generalizing r with
  | zero =>
    have none := List.length_eq_zero_iff.mp (Nat.le_zero.mp enough)
    exact .inl ⟨held, none⟩
  | succ fuel ih =>
    rw [readLoop]
    by_cases none : r.input = []
    · rw [if_pos (.inl none)]
      exact .inl ⟨held, none⟩
    · have going : ¬ (r.input = [] ∨ r.aborted = true) := by simp [none, held.running]
      rw [if_neg going, iecsockBufferRead]
      by_cases waiting : r.left = 0
      · rw [if_pos waiting]
        obtain ⟨next, more⟩ := header_held ops frame held waiting (whole waiting none)
        apply ih next (fun idle => absurd idle more)
        rw [Reader.headerRead_input, List.length_drop, iechdrSize]
        omega
      · rw [if_neg waiting]
        rcases body_held ops frame held waiting with ⟨next, empty, more⟩ | ⟨all, handed⟩
        · apply ih next (fun idle => absurd idle more)
          rw [empty]
          exact Nat.zero_le _
        · right
          refine ⟨all, ?_⟩
          cases fuel with
          | zero => exact handed
          | succ fuel =>
            rw [readLoop, if_pos (.inl handed.input)]
            exact handed

/-- The octets arrive in any pieces, with callbacks in between: none on a part of a header,
and one when all have arrived. -/
structure Delivery (octets : List UInt8) (es : List ReadEvent) : Prop where
  all : arrived es = octets
  last : ∃ before, es = before ++ [.readcb]
  header : ∀ before, before ++ [.readcb] <+: es →
    arrived before = [] ∨ iechdrSize ≤ (arrived before).length

theorem Held.incomplete (frame : Bodied f) (held : Held start f f r) : r.input ≠ [] := by
  intro none
  have body := frame.body
  by_cases waiting : r.left = 0
  · obtain ⟨_, input⟩ := held.idle waiting
    rw [none] at input
    rw [← input] at body
    cases body
  · obtain ⟨_, short, octets⟩ := held.busy waiting
    have pos : r.left.toNat ≠ 0 := by
      intro zero
      exact waiting (UInt8.toNat_inj.mp zero)
    have length := congrArg List.length octets
    rw [none, List.append_nil, List.length_take] at length
    omega

theorem Held.arrive (held : Held start f got r) {chunk : List UInt8} (more : got ++ chunk <+: f) :
    Held start f (got ++ chunk) { r with input := r.input ++ chunk } := by
  refine ⟨held.running, held.session, held.calls, held.room, more, ?_, ?_⟩
  · intro waiting
    obtain ⟨len, input⟩ := held.idle waiting
    exact ⟨len, by rw [← input]⟩
  · intro partly
    obtain ⟨header, short, octets⟩ := held.busy partly
    exact ⟨header, short, by rw [← octets, List.append_assoc]⟩

theorem readcb_held (frame : Bodied f) (held : Held start f got r)
    (header : got = [] ∨ iechdrSize ≤ got.length) :
    (Held start f got (readStep ops r .readcb) ∧ (readStep ops r .readcb).input = []) ∨
      (got = f ∧ Handed ops start f (readStep ops r .readcb)) := by
  have going : ¬ r.aborted = true := by simp [held.running]
  rw [readStep, if_neg going, bufreadcb]
  refine readLoop_held ops frame held ?_ _ le_rfl
  intro waiting some
  obtain ⟨_, input⟩ := held.idle waiting
  rw [input] at some ⊢
  exact header.resolve_left some

theorem Handed.stays (handed : Handed ops start f r) : readStep ops r .readcb = r := by
  rw [readStep, bufreadcb, handed.input]
  simp [readLoop]

private theorem arrived_cons (e : ReadEvent) (es : List ReadEvent) :
    arrived (e :: es) = arrived [e] ++ arrived es := by simp [arrived]

theorem events_held (frame : Bodied f) (es : List ReadEvent)
    (state : Held start f got r ∨ (got = f ∧ Handed ops start f r))
    (part : got ++ arrived es <+: f)
    (header : ∀ before, before ++ [.readcb] <+: es →
      got ++ arrived before = [] ∨ iechdrSize ≤ (got ++ arrived before).length) :
    Held start f (got ++ arrived es) (es.foldl (readStep ops) r) ∨
      (got ++ arrived es = f ∧ Handed ops start f (es.foldl (readStep ops) r)) := by
  induction es generalizing got r with
  | nil => simpa [arrived] using state
  | cons e es ih =>
    rw [arrived_cons, ← List.append_assoc] at part ⊢
    refine ih ?_ part ?_
    · cases e with
      | arrive chunk =>
        have piece : arrived [.arrive chunk] = chunk := by simp [arrived]
        rw [piece] at part ⊢
        have now : got ++ chunk <+: f := (List.prefix_append _ _).trans part
        rcases state with held | ⟨rfl, handed⟩
        · exact .inl (held.arrive now)
        · -- nothing more can arrive
          have none : chunk = [] := by
            have longer := now.length_le
            rw [List.length_append] at longer
            exact List.length_eq_zero_iff.mp (by omega)
          subst none
          right
          simpa [readStep] using handed
      | readcb =>
        have piece : arrived [.readcb] = [] := rfl
        rw [piece, List.append_nil]
        rcases state with held | ⟨all, handed⟩
        · have ready := header [] (by simp)
          rw [arrived, List.flatMap_nil, List.append_nil] at ready
          rcases readcb_held ops frame held ready with ⟨still, _⟩ | done
          · exact .inl still
          · exact .inr done
        · right
          rw [handed.stays]
          exact ⟨all, handed⟩
    · intro before inside
      have whole := header (e :: before) (List.cons_prefix_cons.mpr ⟨rfl, inside⟩)
      rwa [arrived_cons, ← List.append_assoc] at whole

theorem delivery_handed {es : List ReadEvent} (frame : Bodied f) (held : Held start f [] r)
    (delivery : Delivery f es) : Handed ops start f (es.foldl (readStep ops) r) := by
  obtain ⟨before, rfl⟩ := delivery.last
  have all := delivery.all
  have whole : arrived before = f := by
    rw [← all]
    simp [arrived]
  have header := delivery.header before (List.prefix_refl _)
  have state := events_held ops frame before (.inl held) (by rw [List.nil_append, whole])
    (fun b inside => by simpa using delivery.header b (inside.trans (List.prefix_append _ _)))
  rw [List.nil_append, whole] at state
  rw [List.foldl_append, List.foldl_cons, List.foldl_nil]
  rcases state with held | ⟨_, handed⟩
  · rw [whole] at header
    rcases readcb_held ops frame held header with ⟨still, none⟩ | ⟨_, handed⟩
    · exact absurd none (still.incomplete frame)
    · exact handed
  · rw [handed.stays]
    exact handed

end Reading

end IecUtils.Link.Handover
