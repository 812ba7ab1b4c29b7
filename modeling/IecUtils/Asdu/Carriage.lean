/- Module: IecUtils/Asdu/Carriage
   source: print_asdu of scripts/asduconv; stdin_read, data_received_hook of ieclink/ieclink.c
   digest: The records of the messages on ieclink's standard input are those in the units it makes of them, message by message. -/

import IecUtils.Asdu.Decode
import IecUtils.Link.Chunking
import IecUtils.Link.Transparency

set_option autoImplicit false
set_option relaxedAutoImplicit false

namespace IecUtils.Asdu.Carriage

open IecUtils.Foundation.Hex
open IecUtils.Foundation.Grouping
open IecUtils.Foundation.Lines
open IecUtils.Foundation.Transition
open IecUtils.Link.Frame (Asdu iec104AsduMax uframeHdr sframeHdr)
open IecUtils.Link.Ieclink
open IecUtils.Link.Stdin
open IecUtils.Link.HexLine
open IecUtils.Link.Chunking
open IecUtils.Link.Transparency (printHex upperDigit)
open IecUtils.Asdu.Encoding
open IecUtils.Asdu.Assembler
open IecUtils.Asdu.Readback
open IecUtils.Asdu.Limits (most maxLine length_asduHex size_le_iff_count timed_fits)
open IecUtils.Asdu.Decode

section Text

def byte (c : Char) : UInt8 := UInt8.ofNat c.toNat

def char (b : UInt8) : Char := Char.ofNat b.toNat

/-- Made of the digits that `%X` prints. -/
def Printed (cs : List Char) : Prop := ∀ c ∈ cs, ∃ n < 16, c = digit n

variable {as bs : List Char}

theorem Printed.append (first : Printed as) (second : Printed bs) : Printed (as ++ bs) := by
  intro c member
  rcases List.mem_append.mp member with left | right
  · exact first c left
  · exact second c right

theorem Printed.mono (printed : Printed bs) (part : as ⊆ bs) : Printed as :=
  fun c member => printed c (part member)

theorem printed_digits (w n : Nat) : Printed (digits w n) := by
  induction w generalizing n with
  | zero => exact fun c member => absurd member List.not_mem_nil
  | succ w ih =>
    refine (ih _).append fun c member => ?_
    obtain rfl := List.mem_singleton.mp member
    exact ⟨n % 16, Nat.mod_lt _ (by decide), rfl⟩

theorem reversePairs_subset (k : Nat) (cs : List Char) : reversePairs k cs ⊆ cs := by
  induction k generalizing cs with
  | zero => exact List.nil_subset _
  | succ k ih =>
    rw [reversePairs]
    exact List.append_subset.mpr
      ⟨List.Subset.trans (ih _) (List.drop_subset 2 cs), List.take_subset 2 cs⟩

theorem printed_int2hex (val : Int) (nbyte : Nat) : Printed (int2hex val nbyte) := by
  rw [int2hex_eq]
  refine Printed.mono ?_ (reversePairs_subset _ _)
  exact printed_digits _ _

theorem printed_float2hex (mode : FloatFunc) (rendering : List Char) :
    Printed (float2hex mode rendering) := by
  have none : Printed [] := fun c member => absurd member List.not_mem_nil
  cases mode with
  | one =>
    unfold float2hex
    dsimp only
    split
    · exact printed_int2hex _ _
    · exact printed_int2hex _ _
  | two => exact none
  | unset => exact none

theorem printed_iehex (mode : FloatFunc) (type : AsduType) (b : Body) :
    Printed (iehex mode type b) := by
  cases type with
  | spNa => exact printed_int2hex _ _
  | meNc => exact (printed_float2hex _ _).append (printed_int2hex _ _)
  | spTb => exact (printed_int2hex _ _).append (printed_int2hex _ _)
  | meTf =>
    exact ((printed_float2hex _ _).append (printed_int2hex _ _)).append (printed_int2hex _ _)

theorem printed_asduHex (mode : FloatFunc) (cot : Int) (g : Portion Nat Body) :
    Printed (asduHex (numeric mode) cot (some (g.vars (numeric mode)))) := by
  have address (addr nbyte : Nat) : Printed (addrHex (numeric mode) addr nbyte) :=
    printed_int2hex addr nbyte
  have elements : Printed (g.members.flatMap fun e => iehex mode e.type e.body) := by
    intro c member
    obtain ⟨e, _, inside⟩ := List.mem_flatMap.mp member
    exact printed_iehex mode e.type e.body c inside
  have objects : Printed (g.members.flatMap fun e => formObj (numeric mode) e.oa e.type e.body) := by
    intro c member
    obtain ⟨e, _, inside⟩ := List.mem_flatMap.mp member
    exact (address e.oa 3).append (printed_iehex mode e.type e.body) c inside
  have data : Printed (g.vars (numeric mode)).data := by
    unfold Portion.vars
    dsimp only
    split
    · exact (address _ 3).append elements
    · exact objects
  exact ((((printed_int2hex _ _).append (printed_int2hex _ _)).append
    (printed_int2hex _ _)).append (address _ 2)).append data

private theorem digit_octet :
    ∀ n < 16, isHex (byte (digit n)) = true ∧ hexValue (byte (digit n)) = n ∧
      char (upperDigit n) = digit n ∧ (byte (digit n)).toNat = (digit n).toNat := by
  decide

theorem hexString_of_printed {cs : List Char} (printed : Printed cs) (even : cs.length % 2 = 0) :
    HexString (cs.map byte) := by
  refine ⟨?_, by rw [List.length_map]; exact even⟩
  intro b member
  obtain ⟨c, inside, rfl⟩ := List.mem_map.mp member
  obtain ⟨n, small, rfl⟩ := printed c inside
  exact (digit_octet n small).1

theorem printHex_octetsOf_printed {cs : List Char} (printed : Printed cs)
    (even : cs.length % 2 = 0) : (printHex (octetsOf (cs.map byte))).map char = cs := by
  induction cs using List.twoStepInduction with
  | nil => rfl
  | singleton c => cases even
  | cons_cons c d cs ih _ =>
    obtain ⟨n, small, first⟩ := printed c (by simp)
    obtain ⟨m, less, second⟩ := printed d (by simp)
    obtain ⟨_, high, upperHigh, _⟩ := digit_octet n small
    obtain ⟨_, low, upperLow, _⟩ := digit_octet m less
    have later : cs.length % 2 = 0 := by
      simp only [List.length_cons] at even
      omega
    have rest := ih (printed.mono fun c member => by simp [member]) later
    have value : (UInt8.ofNat (n * 16 + m)).toNat = n * 16 + m := by
      rw [UInt8.toNat_ofNat']
      omega
    have quotient : (n * 16 + m) / 16 = n := by omega
    have remainder : (n * 16 + m) % 16 = m := by omega
    rw [printHex] at rest
    rw [List.map_cons, List.map_cons, first, second, octetsOf, high, low, printHex,
      List.flatMap_cons, value, quotient, remainder, List.map_append, rest, List.map_cons,
      List.map_cons, upperHigh, upperLow]
    rfl

end Text

section Messages

/-- The records of a message file in the order of the lines, which asdusend has converted for a
cause, when each fits the addresses and the lines fit the link. -/
structure Message (mode : FloatFunc) where
  cause : Nat
  records : List (Entry Nat Body)
  nonempty : records ≠ []
  sized : cause < 2 ^ 16
  range : ∀ e ∈ records, InRange e
  runs : ShortRuns mode records
  short : ∀ g ∈ (division (numeric mode)).groups records, AsduType.timed g.first.type = false →
    g.count ≤ most mode g.first.type g.sq

def Message.lines {mode : FloatFunc} (m : Message mode) : List (List Char) :=
  printed mode m.cause m.records

def Message.input {mode : FloatFunc} (m : Message mode) : List (List UInt8) :=
  m.lines.map (·.map byte) ++ [[62]]

def telegram (mode : FloatFunc) (u : Asdu) : Option Telegram :=
  readLine mode ((printHex u.bytes).map char)

structure Conveys {mode : FloatFunc} (m : Message mode) (units : List Asdu) : Prop where
  texts : units.map (fun u => (printHex u.bytes).map char) = m.lines
  records : ∃ telegrams : List Telegram,
    units.map (telegram mode) = telegrams.map Option.some ∧
      (∀ t ∈ telegrams, t.cause = m.cause) ∧
      telegrams.flatMap Telegram.objects = m.records.map (object mode)

variable {mode : FloatFunc}

theorem width_even (mode : FloatFunc) (type : AsduType) : width mode type % 2 = 0 := by
  cases type <;> cases mode <;> rfl

theorem length_even {g : Portion Nat Body} (uniform : g.Uniform) (cot : Int) :
    (asduHex (numeric mode) cot (some (g.vars (numeric mode)))).length % 2 = 0 := by
  obtain ⟨k, half⟩ := Nat.dvd_of_mod_eq_zero (width_even mode g.first.type)
  rw [length_asduHex, length_data uniform, Portion.size]
  change (12 + if g.sq then 6 + g.count * width mode g.first.type
    else g.count * (6 + width mode g.first.type)) % 2 = 0
  rw [half]
  split
  · rw [Nat.mul_left_comm]
    omega
  · have product : g.count * (6 + 2 * k) = 2 * (g.count * (3 + k)) := by ring
    rw [product]
    omega

theorem Message.line_carried (m : Message mode) {line : List Char} (member : line ∈ m.lines) :
    WellFormed (line.map byte) ∧ (printHex (octetsOf (line.map byte))).map char = line := by
  have entries : (m.records.map some).reduceOption = m.records := by
    simp [List.reduceOption]
  rw [lines, printed, transformAsdu_eq, entries, if_neg m.nonempty, List.map_map] at member
  obtain ⟨g, inside, rfl⟩ := List.mem_map.mp member
  have uniform := groups_uniform m.records g inside
  have hex := printed_asduHex mode m.cause g
  have even : (asduHex (numeric mode) m.cause (some (g.vars (numeric mode)))).length % 2 = 0 :=
    length_even uniform m.cause
  have fits : (asduHex (numeric mode) m.cause (some (g.vars (numeric mode)))).length ≤ maxLine := by
    rw [length_asduHex, length_data uniform]
    cases timed : AsduType.timed g.first.type with
    | true => exact timed_fits uniform (groups_size m.records g inside) timed
    | false => exact (size_le_iff_count g).mpr (m.short g inside timed)
  refine ⟨⟨?_, hexString_of_printed hex even, ?_⟩, printHex_octetsOf_printed hex even⟩
  · intro empty
    have none := congrArg List.length empty
    rw [List.length_map, Function.comp_apply, length_asduHex, List.length_nil] at none
    omega
  · rw [List.length_map, Function.comp_apply]
    unfold maxLine at fits
    omega

theorem Message.unit_of_line (m : Message mode) {line : List Char} (member : line ∈ m.lines) :
    ∃ u, lineTokens (line.map byte) = [.unit u] ∧ (printHex u.bytes).map char = line := by
  obtain ⟨well, text⟩ := m.line_carried member
  obtain ⟨u, unit, bytes⟩ := unitOf_hex well.hex well.nonempty
  have whole : u.bytes = octetsOf (line.map byte) := by
    rw [bytes, List.take_of_length_le]
    rw [octetsOf_length]
    exact well.short
  refine ⟨u, ?_, by rw [whole, text]⟩
  rw [lineTokens, if_neg well.hex.not_mark, unit]
  rfl

end Messages

section Runs

variable {mode : FloatFunc}

theorem units_of_lines {lines : List (List Char)}
    (each : ∀ line ∈ lines,
      ∃ u : Asdu, lineTokens (line.map byte) = [.unit u] ∧ (printHex u.bytes).map char = line) :
    ∃ units : List Asdu, (lines.map (·.map byte)).flatMap lineTokens = units.map .unit ∧
      units.map (fun u => (printHex u.bytes).map char) = lines := by
  induction lines with
  | nil => exact ⟨[], rfl, rfl⟩
  | cons line lines ih =>
    obtain ⟨u, token, text⟩ := each line List.mem_cons_self
    obtain ⟨units, tokens, texts⟩ := ih fun l member => each l (List.mem_cons_of_mem _ member)
    refine ⟨u :: units, ?_, ?_⟩
    · rw [List.map_cons, List.flatMap_cons, token, tokens]
      rfl
    · rw [List.map_cons, text, texts]

theorem Message.tokens_input (m : Message mode) :
    ∃ units : List Asdu, m.input.flatMap lineTokens = units.map .unit ++ [.mark] ∧
      Conveys m units := by
  obtain ⟨units, tokens, texts⟩ := units_of_lines fun line member => m.unit_of_line member
  obtain ⟨telegrams, read, cause, objects⟩ :=
    readLine_printed m.nonempty m.sized m.range m.runs
  refine ⟨units, ?_, texts, telegrams, ?_, cause, objects⟩
  · rw [input, List.flatMap_append, tokens]
    rfl
  · have same : units.map (telegram mode) =
        (units.map fun u => (printHex u.bytes).map char).map (readLine mode) := by
      rw [List.map_map]
      rfl
    rw [same, texts]
    exact read

theorem tokens_inputs (messages : List (Message mode)) :
    ∃ unitss : List (List Asdu),
      (messages.flatMap Message.input).flatMap lineTokens =
        unitss.flatMap (fun units => units.map .unit ++ [.mark]) ∧
      List.Forall₂ Conveys messages unitss := by
  induction messages with
  | nil => exact ⟨[], rfl, .nil⟩
  | cons m messages ih =>
    obtain ⟨units, tokens, conveys⟩ := m.tokens_input
    obtain ⟨unitss, later, all⟩ := ih
    refine ⟨units :: unitss, ?_, .cons conveys all⟩
    rw [List.flatMap_cons, List.flatMap_append, tokens, later, List.flatMap_cons]

theorem input_free (messages : List (Message mode)) :
    ∀ line ∈ messages.flatMap Message.input, (10 : UInt8) ∉ line ∧ line.length ≤ 1000 := by
  intro line member
  obtain ⟨m, _, inside⟩ := List.mem_flatMap.mp member
  rcases List.mem_append.mp inside with data | mark
  · obtain ⟨text, printed, rfl⟩ := List.mem_map.mp data
    have well := (m.line_carried printed).1
    have short := well.short
    have even := well.hex.even
    rw [iec104AsduMax] at short
    refine ⟨?_, by omega⟩
    intro newline
    exact absurd (well.hex.digits 10 newline) (by decide)
  · obtain rfl := List.mem_singleton.mp mark
    decide

/-- In every run of ieclink whose input is messages, however it is split, with nothing read
together with a mark before it: what comes of the input are units and marks, message by message,
and the units hold the records of the message, each once and in order, under its cause. -/
theorem records_carried {es : List LinkEvent} {x : Process} {messages : List (Message mode)}
    (reached : run linkStep linkStart es = some x)
    (stream : readOf es = join 10 (messages.flatMap Message.input)) (tidy : Tidy es) :
    ∃ unitss : List (List Asdu),
      tokensOf es = unitss.flatMap (fun units => units.map .unit ++ [.mark]) ∧
        List.Forall₂ Conveys messages unitss := by
  have begins : readOf es <+: join 10 (messages.flatMap Message.input) := by
    rw [stream]
  have lines := tidy_lines (input_free messages) reached begins tidy
  rw [stream, cut_join fun line member => (input_free messages line member).1] at lines
  rw [tokensOf_eq reached, ← (Prod.mk.inj lines).1]
  exact tokens_inputs messages

/-- A message of one single point, without a time tag. -/
def onePoint (oa : Nat) (small : oa < 2 ^ 24) : Message .one where
  cause := 3
  records := [⟨1, oa, .spNa, ⟨['1'], [], [], []⟩⟩]
  nonempty := List.cons_ne_nil _ _
  sized := by decide
  range e member := by
    obtain rfl := List.mem_singleton.mp member
    exact ⟨(by decide : 1 < 2 ^ 16), small⟩
  runs e member _ := by
    obtain rfl := List.mem_singleton.mp member
    refine ⟨1, by decide, fun e' other _ _ same => ?_⟩
    obtain rfl := List.mem_singleton.mp other
    exact absurd same (by dsimp only; omega)
  short g member _ := by
    have single : (division (numeric .one)).groups [⟨1, oa, .spNa, ⟨['1'], [], [], []⟩⟩] =
      [⟨⟨1, oa, .spNa, ⟨['1'], [], [], []⟩⟩, [], false⟩] := rfl
    rw [single] at member
    obtain rfl := List.mem_singleton.mp member
    exact (by decide : 1 ≤ most .one .spNa false)

/-- Two messages, the first of them in two reads, and the second one when that is confirmed. -/
def twoMessages : List LinkEvent :=
  [.recv ⟨uframeHdr .startcon, []⟩,
    .stdin [(join 10 (onePoint 5 (by decide)).input).take 7,
      (join 10 (onePoint 5 (by decide)).input).drop 7],
    .recv ⟨sframeHdr 1, []⟩, .stdin [join 10 (onePoint 6 (by decide)).input]]

theorem records_carried_twoMessages : ∃ unitss : List (List Asdu),
    tokensOf twoMessages = unitss.flatMap (fun units => units.map .unit ++ [.mark]) ∧
      List.Forall₂ Conveys [onePoint 5 (by decide), onePoint 6 (by decide)] unitss := by
  have reached : run linkStep linkStart twoMessages = some _ := rfl
  have tidy : Tidy twoMessages := by
    unfold Tidy
    decide +kernel
  exact records_carried reached (by decide +kernel) tidy

end Runs

end IecUtils.Asdu.Carriage
