/- Module: IecUtils/Link/HexLine
   source: the decoding loop of stdin_read in ieclink/ieclink.c
   digest: The lines that are passed on are the lines of hexadecimal digits, and those of more than 249 octets are shortened. -/

import IecUtils.Link.Stdin

set_option autoImplicit false
set_option relaxedAutoImplicit false

namespace IecUtils.Link.HexLine

open IecUtils.Foundation.Lines
open IecUtils.Foundation.Transition
open IecUtils.Link.Frame
open IecUtils.Link.Session
open IecUtils.Link.Ieclink
open IecUtils.Link.Stdin

def isHex (b : UInt8) : Bool :=
  decide (48 ≤ b ∧ b ≤ 57) || decide (65 ≤ b ∧ b ≤ 70) || decide (97 ≤ b ∧ b ≤ 102)

def hexValue (b : UInt8) : Nat :=
  if b ≤ 57 then b.toNat - 48 else if b ≤ 70 then b.toNat - 55 else b.toNat - 87

def octetsOf : List UInt8 → List UInt8
  | [] => []
  | [_] => []
  | hi :: lo :: rest => UInt8.ofNat (hexValue hi * 16 + hexValue lo) :: octetsOf rest

structure HexString (line : List UInt8) : Prop where
  digits : ∀ b ∈ line, isHex b = true
  even : line.length % 2 = 0

/-- What `stdin_read` is to transmit. -/
structure WellFormed (line : List UInt8) : Prop where
  nonempty : line ≠ []
  hex : HexString line
  short : line.length / 2 ≤ iec104AsduMax

def Overlong (line : List UInt8) : Prop := HexString line ∧ iec104AsduMax < line.length / 2

section Decode

private theorem hexDigit_ofNat :
    ∀ n < 256, hexDigit (UInt8.ofNat n) =
      if isHex (UInt8.ofNat n) then some (UInt8.ofNat (hexValue (UInt8.ofNat n))) else none := by
  decide +kernel

theorem hexDigit_eq (b : UInt8) :
    hexDigit b = if isHex b then some (UInt8.ofNat (hexValue b)) else none := by
  have all := hexDigit_ofNat b.toNat b.toNat_lt
  rwa [UInt8.ofNat_toNat] at all

theorem octetsOf_length (line : List UInt8) : (octetsOf line).length = line.length / 2 := by
  induction line using octetsOf.induct with
  | case1 => rfl
  | case2 a => simp [octetsOf]
  | case3 hi lo rest ih =>
    rw [octetsOf, List.length_cons, ih, List.length_cons, List.length_cons]
    omega

private theorem take_take_append (n : Nat) (l m : List UInt8) :
    (l.take n ++ m).take n = (l ++ m).take n := by
  by_cases short : l.length ≤ n
  · rw [List.take_of_length_le short]
  · have full : (l.take n).length = n := by
      rw [List.length_take]
      omega
    rw [List.take_append_of_le_length (by omega), List.take_append_of_le_length (by omega),
      List.take_take, Nat.min_self]

private theorem storeOctet_bytes (asdu : Asdu) (v : UInt8) :
    (storeOctet asdu v).bytes = (asdu.bytes ++ [v]).take iec104AsduMax := by
  have fits := asdu.fits
  unfold storeOctet
  split
  · rename_i room
    rw [List.take_of_length_le]
    rw [List.length_append, List.length_singleton]
    omega
  · rw [List.take_append_of_le_length (by omega), List.take_of_length_le fits]

private theorem HexString.rest {hi lo : UInt8} {rest : List UInt8}
    (h : HexString (hi :: lo :: rest)) :
    isHex hi = true ∧ isHex lo = true ∧ HexString rest := by
  have even := h.even
  refine ⟨h.digits hi (by simp), h.digits lo (by simp), fun b member => h.digits b (by simp [member]), ?_⟩
  simp only [List.length_cons] at even
  omega

theorem decodeLine_hex (asdu : Asdu) (line : List UInt8) (hex : HexString line) :
    (decodeLine asdu line).2 = true ∧
      (decodeLine asdu line).1.bytes = (asdu.bytes ++ octetsOf line).take iec104AsduMax := by
  induction line using octetsOf.induct generalizing asdu with
  | case1 =>
    refine ⟨rfl, ?_⟩
    rw [octetsOf, List.append_nil, List.take_of_length_le asdu.fits]
    rfl
  | case2 b => cases hex.even
  | case3 hi lo rest ih =>
    obtain ⟨first, second, later⟩ := hex.rest
    have value : UInt8.ofNat (hexValue hi) * 16 + UInt8.ofNat (hexValue lo) =
        UInt8.ofNat (hexValue hi * 16 + hexValue lo) := by
      simp
    rw [decodeLine, hexDigit_eq, hexDigit_eq, if_pos first, if_pos second]
    simp only [value]
    obtain ⟨reached, bytes⟩ := ih (storeOctet asdu (UInt8.ofNat (hexValue hi * 16 + hexValue lo))) later
    refine ⟨reached, ?_⟩
    rw [bytes, storeOctet_bytes, octetsOf, take_take_append, List.append_assoc, List.singleton_append]

theorem decodeLine_other (asdu : Asdu) (line : List UInt8) (other : ¬ HexString line) :
    (decodeLine asdu line).2 = false := by
  induction line using octetsOf.induct generalizing asdu with
  | case1 => exact absurd ⟨nofun, rfl⟩ other
  | case2 b => rfl
  | case3 hi lo rest ih =>
    rw [decodeLine, hexDigit_eq, hexDigit_eq]
    by_cases first : isHex hi = true
    · by_cases second : isHex lo = true
      · rw [if_pos first, if_pos second]
        apply ih
        intro later
        refine other ⟨?_, ?_⟩
        · intro b member
          rcases List.mem_cons.mp member with rfl | member
          · exact first
          · rcases List.mem_cons.mp member with rfl | member
            · exact second
            · exact later.digits b member
        · have even := later.even
          simp only [List.length_cons]
          omega
      · rw [if_pos first, if_neg second]
    · rw [if_neg first]

variable {line : List UInt8}

theorem unitOf_hex (hex : HexString line) (some : line ≠ []) :
    ∃ u, unitOf line = Option.some u ∧ u.bytes = (octetsOf line).take iec104AsduMax := by
  obtain ⟨reached, bytes⟩ := decodeLine_hex noAsdu line hex
  have nonempty : (octetsOf line).take iec104AsduMax ≠ [] := by
    have even := hex.even
    have positive := List.length_pos_iff.mpr some
    apply List.ne_nil_of_length_pos
    rw [List.length_take, octetsOf_length, iec104AsduMax]
    omega
  refine ⟨(decodeLine noAsdu line).1, ?_, bytes⟩
  rw [unitOf, if_pos ⟨reached, by rw [bytes]; exact nonempty⟩]

theorem unitOf_other (other : ¬ (HexString line ∧ line ≠ [])) : unitOf line = none := by
  by_cases hex : HexString line
  · have empty : line = [] := by
      by_contra some
      exact other ⟨hex, some⟩
    subst empty
    decide
  · rw [unitOf, decodeLine_other noAsdu line hex]
    simp

theorem HexString.not_mark (hex : HexString line) : line.head? ≠ some 62 := by
  intro mark
  cases line with
  | nil => cases mark
  | cons b rest =>
    obtain rfl := Option.some.inj mark
    exact absurd (hex.digits 62 List.mem_cons_self) (by decide)

end Decode

/-- One unit with these octets is passed to `iec_asdu_send`, or stored in the list. -/
def Passes (x y : Process) (octets : List UInt8) : Prop :=
  ∃ u : Asdu, u.bytes = octets ∧
    ((y.2.sent = x.2.sent ++ [u] ∧ y.2.asdulist = x.2.asdulist) ∨
      (y.2.sent = x.2.sent ∧ y.2.asdulist = x.2.asdulist ++ [u]))

/-- From `x` to `y` a well-formed line is passed on as it is, and any other line changes
nothing, but that an end mark may be noted. -/
def Exact (x y : Process) (line : List UInt8) : Prop :=
  (WellFormed line ∧ Passes x y (octetsOf line)) ∨
    (¬ WellFormed line ∧ (y = x ∨
      line.head? = some 62 ∧ y = (x.1, { x.2 with rbuf := [], endmsg := true })))

/-- The process when the first complete lines of a buffer are done with. -/
def doneWith (b : Batch) (lines : List (List UInt8)) : Process :=
  (upToMark lines).foldl takeLine b.before

section Exact

variable {x : Process} {line : List UInt8}

private theorem accept_passes (u : Asdu) :
    Passes x (acceptAsdu x u) u.bytes ↔ iecsockCanQueue x.1 ≠ 0 ∨ x.2.linked = true := by
  unfold acceptAsdu
  simp only
  split
  · rename_i room
    refine ⟨fun _ => .inl room, fun _ => ⟨u, rfl, .inl ⟨rfl, rfl⟩⟩⟩
  · rename_i full
    refine ⟨?_, ?_⟩
    · rintro ⟨v, _, ⟨sent, _⟩ | ⟨_, list⟩⟩
      · have grown := congrArg List.length sent
        simp [listAppend] at grown
      · refine .inr ?_
        by_contra loose
        have grown := congrArg List.length list
        simp [listAppend, loose] at grown
    · intro cause
      have linked := cause.resolve_left full
      exact ⟨u, rfl, .inr ⟨rfl, by simp [listAppend, linked]⟩⟩

private theorem accept_changes (u : Asdu) : acceptAsdu x u ≠ x := by
  intro same
  have grown := congrArg (fun y : Process => y.2.accepted.length) same
  unfold acceptAsdu at grown
  simp only at grown
  split at grown <;> simp [iecAsduSend, listAppend] at grown

theorem takeLine_exact_iff (clear : x.2.asdubuf = noAsdu) :
    Exact x (takeLine x line) line ↔
      ¬ Overlong line ∧ (WellFormed line → iecsockCanQueue x.1 ≠ 0 ∨ x.2.linked = true) := by
  by_cases hex : HexString line ∧ line ≠ []
  · obtain ⟨digits, some⟩ := hex
    obtain ⟨u, unit, bytes⟩ := unitOf_hex digits some
    have taken : takeLine x line = acceptAsdu x u := by
      rw [takeLine_data clear digits.not_mark, unit]
      rfl
    by_cases long : iec104AsduMax < line.length / 2
    · have bad : ¬ WellFormed line := fun well => absurd well.short (by omega)
      refine ⟨?_, fun holds => absurd ⟨digits, long⟩ holds.1⟩
      rintro (⟨well, _⟩ | ⟨_, same⟩)
      · exact absurd well bad
      · rw [taken] at same
        exact absurd (same.resolve_right fun mark => digits.not_mark mark.1) (accept_changes u)
    · have well : WellFormed line := ⟨some, digits, by omega⟩
      have whole : u.bytes = octetsOf line := by
        rw [bytes, List.take_of_length_le]
        rw [octetsOf_length]
        omega
      have passes := accept_passes (x := x) u
      rw [whole, ← taken] at passes
      refine ⟨?_, ?_⟩
      · rintro (⟨_, passed⟩ | ⟨bad, _⟩)
        · exact ⟨fun over' => long over'.2, fun _ => passes.mp passed⟩
        · exact absurd well bad
      · rintro ⟨_, free⟩
        exact .inl ⟨well, passes.mpr (free well)⟩
  · have bad : ¬ WellFormed line := fun well => hex ⟨well.hex, well.nonempty⟩
    have short : ¬ Overlong line := by
      rintro ⟨digits, long⟩
      refine hex ⟨digits, ?_⟩
      rintro rfl
      exact absurd long (by decide)
    refine ⟨fun _ => ⟨short, fun well => absurd well bad⟩, fun _ => .inr ⟨bad, ?_⟩⟩
    by_cases mark : line.head? = some 62
    · exact .inr ⟨mark, takeLine_mark clear mark⟩
    · refine .inl ?_
      rw [takeLine_data clear mark, unitOf_other hex]
      rfl

theorem skipped_exact_iff : Exact x x line ↔ ¬ WellFormed line := by
  refine ⟨?_, fun bad => .inr ⟨bad, .inl rfl⟩⟩
  rintro (⟨_, u, _, ⟨sent, _⟩ | ⟨_, list⟩⟩ | ⟨bad, _⟩)
  · have grown := congrArg List.length sent
    simp at grown
  · have grown := congrArg List.length list
    simp at grown
  · exact bad

variable {b : Batch}

theorem doneWith_clear (clear : b.before.2.asdubuf = noAsdu) (lines : List (List UInt8)) :
    (doneWith b lines).2.asdubuf = noAsdu := foldl_clear (upToMark lines) clear

theorem doneWith_append (pre : List (List UInt8)) (line : List UInt8) :
    doneWith b (pre ++ [line]) =
      if marked pre then doneWith b pre else takeLine (doneWith b pre) line := by
  rw [doneWith, upToMark_append]
  split
  · rfl
  · rw [List.foldl_append]
    rfl

theorem after_doneWith (turn : Turn b) :
    ∃ rbuf, b.after = ((doneWith b (cut 10 b.bytes).1).1,
      { (doneWith b (cut 10 b.bytes).1).2 with rbuf := rbuf }) := by
  rw [turn.after]
  cases mark : b.marked with
  | true =>
    rw [Batch.result_marked mark]
    exact ⟨_, rfl⟩
  | false =>
    rw [Batch.result_unmarked mark]
    exact ⟨_, rfl⟩

end Exact

/-- In every run, for every complete line of every buffer: the line is passed on exactly if
it is well formed, unless a mark stands before it, it is too long, or it has to go into a
list whose end is lost. -/
theorem lines_exact_iff {es : List LinkEvent} {x : Process}
    (reached : run linkStep linkStart es = some x) {b : Batch}
    (seen : b ∈ observe linkStep turnsOf linkStart es) {pre post : List (List UInt8)}
    {line : List UInt8} (complete : (cut 10 b.bytes).1 = pre ++ line :: post) :
    (∃ rbuf, b.after = ((doneWith b (pre ++ line :: post)).1,
      { (doneWith b (pre ++ line :: post)).2 with rbuf := rbuf })) ∧
    (Exact (doneWith b pre) (doneWith b (pre ++ [line])) line ↔
      if marked pre then ¬ WellFormed line
      else ¬ Overlong line ∧ (WellFormed line →
        iecsockCanQueue (doneWith b pre).1 ≠ 0 ∨ (doneWith b pre).2.linked = true)) := by
  obtain ⟨turn, empty⟩ := observed_turns reached b seen
  have clear := doneWith_clear empty pre
  refine ⟨?_, ?_⟩
  · rw [← complete]
    exact after_doneWith turn
  · rw [doneWith_append]
    split
    · exact skipped_exact_iff
    · exact takeLine_exact_iff clear

/-- A line of two digits after a line of none, on a fresh connection. -/
def shortRun : List LinkEvent := [.recv ⟨uframeHdr .startcon, []⟩, .stdin [[10, 54, 52, 10]]]

theorem lines_exact_short : ∃ x b, run linkStep linkStart shortRun = some x ∧
    b ∈ observe linkStep turnsOf linkStart shortRun ∧ (cut 10 b.bytes).1 = [[]] ++ [54, 52] :: [] ∧
    Exact (doneWith b [[]]) (doneWith b ([[]] ++ [[54, 52]])) [54, 52] := by
  have reached : run linkStep linkStart shortRun = some _ := rfl
  have seen : _ ∈ observe linkStep turnsOf linkStart shortRun := List.mem_singleton.mpr rfl
  refine ⟨_, _, reached, seen, rfl, ?_⟩
  have complete : (cut 10 [10, 54, 52, 10]).1 = [[]] ++ [54, 52] :: ([] : List (List UInt8)) := rfl
  refine (lines_exact_iff reached seen complete).2.mpr ?_
  rw [if_neg (by decide)]
  refine ⟨?_, fun _ => .inr rfl⟩
  rintro ⟨_, long⟩
  exact absurd long (by decide)

def overlongLine : List UInt8 := List.replicate 500 48

def overlongRun : List LinkEvent :=
  [.recv ⟨uframeHdr .startcon, []⟩, .stdin [overlongLine ++ [10]]]

theorem overlong_shortened : ∃ x, run linkStep linkStart overlongRun = some x ∧
    x.2.sent.map (fun u => u.bytes.length) = [249] ∧
    ∃ b ∈ observe linkStep turnsOf linkStart overlongRun, (cut 10 b.bytes).1 = [overlongLine] ∧
      ¬ Exact (doneWith b []) (doneWith b [overlongLine]) overlongLine := by
  have sends : (run linkStep linkStart overlongRun).map (fun x => x.2.sent.map fun u => u.bytes.length) =
      some [249] := by decide +kernel
  have lines : (observe linkStep turnsOf linkStart overlongRun).map (fun b => (cut 10 b.bytes).1) =
      [[overlongLine]] := by decide +kernel
  obtain ⟨x, reached, sent⟩ := Option.map_eq_some_iff.mp sends
  obtain ⟨b, single, line⟩ := List.map_eq_singleton_iff.mp lines
  have seen : b ∈ observe linkStep turnsOf linkStart overlongRun := by
    rw [single]
    exact List.mem_singleton.mpr rfl
  have digits : HexString overlongLine := by
    refine ⟨?_, by rw [overlongLine, List.length_replicate]⟩
    intro c member
    obtain rfl := (List.mem_replicate.mp member).2
    rfl
  have taken : doneWith b [overlongLine] = takeLine (doneWith b []) overlongLine :=
    doneWith_append [] overlongLine
  refine ⟨x, reached, sent, b, seen, line, ?_⟩
  rw [taken, takeLine_exact_iff (doneWith_clear (observed_turns reached b seen).2 [])]
  intro holds
  refine holds.1 ⟨digits, ?_⟩
  rw [overlongLine, List.length_replicate]
  decide

end IecUtils.Link.HexLine
