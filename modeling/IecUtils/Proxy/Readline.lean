/- Module: IecUtils/Proxy/Readline
   source: readline and the classification of lines in iecproxy/iecproxy.c, data_received_hook of
   ieclink/ieclink.c
   digest: Lines of ieclink read one octet at a time, and which of them start an interrogation. -/

import IecUtils.Link.Transparency
import IecUtils.Proxy.Poll

set_option autoImplicit false
set_option relaxedAutoImplicit false

namespace IecUtils.Proxy.Readline

open IecUtils.Link.Ieclink (Line)
open IecUtils.Link.HexLine (hexValue)
open IecUtils.Link.Transparency (printHex text upperDigit)
open IecUtils.Proxy.Poll

section Reading

/-- What a `read` of one octet returns; `error` is any but `EINTR`. -/
inductive ReadResult where
  | octet (c : UInt8)
  | eof
  | eintr
  | error
  deriving DecidableEq

/-- The loop from the `n`th octet on, with what was stored so far: what is returned, the buffer and
the reads to come. Without a result of `read` it waits. -/
def readlineFrom (maxlen : Nat) (n : Nat) (buf : List UInt8) :
    List ReadResult → Option (Int × List UInt8 × List ReadResult)
  | [] => if n < maxlen then none else some (n, buf, [])
  | r :: rest =>
      if n < maxlen then
        match r with
        | .octet c =>
            if c = 10 then some (n, buf ++ [c], rest)
            else readlineFrom maxlen (n + 1) (buf ++ [c]) rest
        | .eof => if n = 1 then some (0, buf, rest) else some (n, buf, rest)
        | .eintr => readlineFrom maxlen n buf rest
        | .error => some (-1, buf, rest)
      else some (n, buf, r :: rest)

def readline (maxlen : Nat) (reads : List ReadResult) :
    Option (Int × List UInt8 × List ReadResult) := readlineFrom maxlen 1 [] reads

/-- The chain of comparisons, with the number that `readline` returned. -/
def classifyRead (n : Nat) (buf : List UInt8) : LinkLine :=
  if strncmpEq 8 endInit buf then .endInit
  else if strncmpEq (n - 1) giAct buf then .giAct
  else if buf.head? = some 43 then .plus
  else if buf.head? = some 45 then .minus
  else if buf.head? = some 60 then .confirm
  else .other

def branch (reads : List ReadResult) : Option LinkLine :=
  match readline 512 reads with
  | none => none
  | some (n, buf, _) => if 0 < n then some (classifyRead n.toNat buf) else none

/-- Octets that are read one by one, with interruptions. -/
inductive Delivers : List UInt8 → List ReadResult → Prop where
  | nil : Delivers [] []
  | octet (c : UInt8) {cs : List UInt8} {reads : List ReadResult} :
      Delivers cs reads → Delivers (c :: cs) (.octet c :: reads)
  | eintr {cs : List UInt8} {reads : List ReadResult} :
      Delivers cs reads → Delivers cs (.eintr :: reads)

theorem delivers_map (cs : List UInt8) : Delivers cs (cs.map .octet) := by
  induction cs with
  | nil => exact .nil
  | cons c cs ih => exact .octet c ih

theorem readlineFrom_line {maxlen n : Nat} {line : List UInt8} {reads : List ReadResult}
    (delivers : Delivers (line ++ [10]) reads) (free : 10 ∉ line) (fits : n + line.length < maxlen)
    (buf : List UInt8) (more : List ReadResult) :
    ∃ rest, readlineFrom maxlen n buf (reads ++ more) =
      some (((n + line.length : Nat) : Int), buf ++ line ++ [10], rest) := by
  generalize all : line ++ [10] = cs at delivers
  induction delivers generalizing line n buf with
  | nil => simp at all
  | octet c delivers ih =>
    have short : n < maxlen := by omega
    cases line with
    | nil =>
      rw [List.nil_append, List.cons.injEq] at all
      obtain ⟨rfl, rfl⟩ := all
      rename_i reads
      refine ⟨reads ++ more, ?_⟩
      rw [List.cons_append, readlineFrom, if_pos short]
      simp
    | cons d line =>
      rw [List.cons_append, List.cons.injEq] at all
      obtain ⟨rfl, all⟩ := all
      obtain ⟨first, later⟩ := not_or.mp (List.mem_cons.not.mp free)
      rw [List.length_cons] at fits
      obtain ⟨rest, result⟩ := ih later (by omega : n + 1 + line.length < maxlen) (buf ++ [d]) all
      refine ⟨rest, ?_⟩
      rw [List.cons_append, readlineFrom, if_pos short, List.length_cons]
      simp only [if_neg (Ne.symm first), result, List.append_assoc, List.cons_append,
        List.nil_append, Nat.add_assoc, Nat.add_comm 1]
  | eintr delivers ih =>
    obtain ⟨rest, result⟩ := ih free fits buf all
    refine ⟨rest, ?_⟩
    rw [List.cons_append, readlineFrom, if_pos (by omega)]
    exact result

end Reading

section Prefixes

private theorem hexValue_upperDigit : ∀ n < 16, hexValue (upperDigit n) = n := by
  decide

private theorem upperDigit_inj {m n : Nat} (small : m < 16) (small' : n < 16)
    (same : upperDigit m = upperDigit n) : m = n := by
  rw [← hexValue_upperDigit m small, same, hexValue_upperDigit n small']

theorem printHex_prefix_iff (bs cs : List UInt8) : printHex bs <+: printHex cs ↔ bs <+: cs := by
  induction bs generalizing cs with
  | nil => exact ⟨fun _ => List.nil_prefix, fun _ => List.nil_prefix⟩
  | cons b bs ih =>
    have digits (c : UInt8) (rest : List UInt8) : printHex (c :: rest) =
        upperDigit (c.toNat / 16) :: upperDigit (c.toNat % 16) :: printHex rest := rfl
    cases cs with
    | nil =>
      rw [digits]
      constructor
      · intro wrong
        cases List.prefix_nil.mp wrong
      · intro wrong
        cases List.prefix_nil.mp wrong
    | cons c cs =>
      have bound := b.toNat_lt
      have bound' := c.toNat_lt
      rw [digits, digits, List.cons_prefix_cons, List.cons_prefix_cons, List.cons_prefix_cons, ih]
      constructor
      · rintro ⟨high, low, rest⟩
        have quotient := upperDigit_inj (by omega) (by omega) high
        have remainder := upperDigit_inj (by omega) (by omega) low
        exact ⟨UInt8.toNat_inj.mp (by omega), rest⟩
      · rintro ⟨rfl, rest⟩
        exact ⟨rfl, rfl, rest⟩

theorem strncmpEq_prefix (as bs more : List UInt8) :
    strncmpEq as.length bs (as ++ more) = true ↔ as <+: bs := by
  induction as generalizing bs with
  | nil => exact ⟨fun _ => List.nil_prefix, fun _ => rfl⟩
  | cons a as ih =>
    cases bs with
    | nil => simp [strncmpEq]
    | cons b bs =>
      rw [List.length_cons, List.cons_append, strncmpEq, List.cons_prefix_cons, ← ih,
        Bool.and_eq_true, beq_iff_eq, eq_comm]

end Prefixes

section Interrogation

/-- The octets of `GI_ACT`. -/
def giOctets : List UInt8 := [100, 1, 6, 0, 255, 255, 0, 0, 0, 20]

theorem printHex_giOctets : printHex giOctets = giAct := by decide

private theorem newline_notMem (bytes : List UInt8) : 10 ∉ printHex bytes := by
  have digit : ∀ n < 16, upperDigit n ≠ 10 := by decide
  intro member
  obtain ⟨b, _, inside⟩ := List.mem_flatMap.mp member
  have bound := b.toNat_lt
  rcases List.mem_pair.mp inside with high | low
  · exact digit _ (by omega) high.symm
  · exact digit _ (by omega) low.symm

private theorem length_printHex (bytes : List UInt8) :
    (printHex bytes).length = 2 * bytes.length := by
  induction bytes with
  | nil => rfl
  | cons b bytes ih =>
    change (printHex bytes).length + 2 = 2 * (bytes.length + 1)
    omega

theorem classifyRead_length (buf : List UInt8) : classifyRead buf.length buf = classify buf := rfl

theorem branch_data {bytes : List UInt8} (range : bytes.length ≤ 249) {reads : List ReadResult}
    (delivers : Delivers (text (.data bytes)) reads) (more : List ReadResult) :
    branch (reads ++ more) =
      some (classify (text (.data bytes))) := by
  have size := length_printHex bytes
  obtain ⟨rest, result⟩ := readlineFrom_line delivers (newline_notMem bytes)
    (by omega : 1 + (printHex bytes).length < 512) [] more
  rw [branch, readline, result, Nat.add_comm 1]
  dsimp only
  rw [if_pos (by omega), Int.toNat_natCast, List.nil_append, ← classifyRead_length]
  congr 2
  rw [text, List.length_append, List.length_singleton]

theorem classify_giAct_iff (bytes : List UInt8) :
    classify (text (.data bytes)) = .giAct ↔ printHex bytes <+: giAct := by
  have agree : strncmpEq (printHex bytes).length giAct (text (.data bytes)) = true ↔
      printHex bytes <+: giAct := strncmpEq_prefix (printHex bytes) giAct [10]
  have size : (text (.data bytes)).length - 1 = (printHex bytes).length := by
    rw [text, List.length_append, List.length_singleton, Nat.add_sub_cancel]
  unfold classify
  rw [size]
  by_cases begins : printHex bytes <+: giAct
  · have apart : strncmpEq 8 endInit (text (.data bytes)) = false := by
      cases digits : printHex bytes with
      | nil =>
        rw [text, digits]
        rfl
      | cons c cs =>
        have first : c = 54 := by
          rw [digits] at begins
          exact (List.cons_prefix_cons.mp begins).1
        rw [text, digits, first]
        rfl
    rw [apart, if_neg Bool.false_ne_true, if_pos (agree.mpr begins)]
    exact ⟨fun _ => begins, fun _ => rfl⟩
  · have differs := mt agree.mp begins
    rw [if_neg differs]
    constructor
    · intro taken
      split_ifs at taken
    · exact fun wrong => (begins wrong).elim

/-- The interrogation is started by the line that asks for it and no other, if and only if the
ASDU is no proper beginning of the one that asks for it: `strncmp` compares no more than what has
come. -/
theorem branch_giAct_iff {bytes : List UInt8} (range : bytes.length ≤ 249)
    {reads : List ReadResult} (delivers : Delivers (text (.data bytes)) reads)
    (more : List ReadResult) :
    (branch (reads ++ more) = some .giAct ↔ printHex bytes = giAct) ↔
      ¬(bytes <+: giOctets ∧ bytes ≠ giOctets) := by
  have taken : branch (reads ++ more) = some .giAct ↔ bytes <+: giOctets := by
    rw [branch_data range delivers, Option.some.injEq, classify_giAct_iff, ← printHex_giOctets,
      printHex_prefix_iff]
  have whole : printHex bytes = giAct ↔ bytes = giOctets := by
    constructor
    · intro same
      have begins : bytes <+: giOctets := by
        rw [← printHex_prefix_iff, printHex_giOctets, same]
      apply begins.eq_of_length
      have size := length_printHex bytes
      rw [same] at size
      change 20 = 2 * bytes.length at size
      change bytes.length = 10
      omega
    · rintro rfl
      exact printHex_giOctets
  rw [taken, whole]
  by_cases same : bytes = giOctets
  · simp [same]
  · simp [same]

/-- The request itself, with an interruption in front. -/
theorem branch_giAct_request :
    (branch ((.eintr :: (text (.data giOctets)).map .octet) ++ []) = some .giAct ↔
        printHex giOctets = giAct) ↔ ¬(giOctets <+: giOctets ∧ giOctets ≠ giOctets) :=
  branch_giAct_iff (by decide) (.eintr (delivers_map _)) []

/-- An ASDU without octets starts an interrogation. -/
theorem branch_giAct_empty :
    branch [.octet 10] = some .giAct ∧ text (.data []) = [10] ∧ printHex [] ≠ giAct := by
  decide

end Interrogation

end IecUtils.Proxy.Readline
