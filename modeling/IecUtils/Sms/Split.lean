/- Module: IecUtils/Sms/Split
   source: smsparse of scripts/utils/sms_utils, on the messages of a listing
   digest: Where the cuts fall in a message, and which records carry what the message says. -/

import IecUtils.Sms.Parse
import IecUtils.Sms.Pdu

set_option autoImplicit false
set_option relaxedAutoImplicit false

namespace IecUtils.Sms.Split

open IecUtils.Foundation.Hex hiding value
open IecUtils.Foundation.Septets
open IecUtils.Foundation.Words
open IecUtils.Sms.Shell
open IecUtils.Sms.Pdu
open IecUtils.Sms.Parse

section Cutting

variable {α : Type} {as bs cs : List α}

theorem cutRange_append {m n : Int} (first : (as.length : Int) + 1 = m)
    (last : (as.length + bs.length : Int) = n) (some : bs ≠ []) :
    cutRange m n (as ++ (bs ++ cs)) = bs := by
  have size := List.length_pos_iff.mpr some
  rw [cutRange, if_neg (by omega), ← List.append_assoc,
    cutTo_append (by rw [List.length_append]; omega), cutFrom_append first]

theorem hextoint_hex (o : Octet) : hextoint (hex [o]) = some o.val := by
  have some : hex [o] ≠ [] := List.ne_nil_of_length_pos (by simp)
  rw [hextoint, if_neg some, number_hex]

def kind : Sender → NumType
  | .international _ => .inter
  | .unknown _ => .unknown
  | .alphanumeric _ _ _ _ => .alphanum

private theorem getNumtype_octet : ∀ o : Octet,
    (o.val / 16 % 8 = 1 → getNumtype (hex [o]) = some .inter) ∧
      (o.val / 16 % 8 = 0 → getNumtype (hex [o]) = some .unknown) ∧
        (o.val / 16 % 8 = 5 → getNumtype (hex [o]) = some .alphanum) := by
  decide +kernel

theorem getNumtype_format (m : Deliver) : getNumtype (hex [m.format]) = some (kind m.sender) := by
  obtain ⟨inter, unknown, alphanum⟩ := getNumtype_octet m.format
  have ton := m.format_ton
  cases sender : m.sender with
  | international number =>
    rw [sender] at ton
    exact inter ton
  | unknown number =>
    rw [sender] at ton
    exact unknown ton
  | alphanumeric n name size fill =>
    rw [sender] at ton
    exact alphanum ton

private theorem udhi_octet : ∀ o : Octet,
    cutRange 2 2 (hextobin (hex [o])) = [decide (o.val / 64 % 2 = 1)] := by
  decide +kernel

theorem udhi_first (m : Deliver) :
    cutRange 2 2 (hextobin (hex [m.first])) = [m.header.isSome] := by
  rw [udhi_octet, m.indicated]
  cases m.header <;> rfl

theorem readPdu_pdu (m : Deliver) (v : Vars) :
    readPdu m.pdu v =
      let turn :=
        readAddress (some (kind m.sender)) m.sender.semiOctets (m.sender.value ++ m.body) v
      readBody [m.header.isSome] (some (kind m.sender)) turn.2 turn.1 := by
  obtain ⟨c, centre, parts⟩ := List.exists_cons_of_ne_nil m.centre_some
  have two (o : Octet) : ((hex [o]).length : Int) = 2 := by rw [length_hex]; rfl
  have three (o : Octet) : ((hex [o]).length : Int) + 1 = 3 := by rw [length_hex]; rfl
  have centre_hex : hex m.centre = hex [c] ++ hex centre := by rw [parts, ← hex_append]; rfl
  have number : ((hex centre).length : Int) + 1 = 2 * ((m.centre.length : Nat) : Int) - 1 := by
    rw [length_hex, parts, List.length_cons]
    omega
  unfold readPdu Deliver.pdu
  dsimp only
  rw [cutTo_append (two _), hextoint_hex, cutFrom_append (three _), centre_hex, List.append_assoc,
    cutFrom_append (three _), Option.getD_some, cutFrom_append number, cutTo_append (two _),
    udhi_first, cutFrom_append (three _), cutTo_append (two _), hextoint_hex, Option.getD_some,
    cutFrom_append (three _), cutTo_append (two _), getNumtype_format, cutFrom_append (three _)]

end Cutting

section Body

private theorem zero_hex (o : Octet) : hex [o] = ['0', '0'] ↔ o = 0 := by
  revert o
  decide +kernel

private theorem eight_hex (o : Octet) : hex [o] = ['0', '8'] ↔ o = 8 := by
  revert o
  decide +kernel

private theorem alphanum_digit : ∀ n < 16, (digit n).isAlphanum = true := by
  decide

/-- Letters and digits, which neither `echo` nor the separator of fields touches. -/
def Plain (cs : List Char) : Prop := ∀ c ∈ cs, c.isAlphanum = true

theorem plain_hex (os : List Octet) : Plain (hex os) := by
  intro c member
  obtain ⟨o, _, inside⟩ := List.mem_flatMap.mp member
  have pair : digits 2 o.val = [digit (o.val / 16 % 16), digit (o.val % 16)] := rfl
  rw [pair] at inside
  rcases List.mem_pair.mp inside with rfl | rfl
  · exact alphanum_digit _ (Nat.mod_lt _ (by decide))
  · exact alphanum_digit _ (Nat.mod_lt _ (by decide))

theorem plain_toDigits (n : Nat) : Plain (Nat.toDigits 10 n) := by
  intro c member
  rw [Char.isAlphanum, Nat.isDigit_of_mem_toDigits (by decide) (by decide) member, Bool.or_true]

theorem zeros_hex (os : List Octet) :
    (hex os).map (fun c => if c.isAlphanum then '0' else c) =
      List.replicate (2 * os.length) '0' := by
  rw [List.eq_replicate_iff, List.length_map, length_hex]
  refine ⟨rfl, ?_⟩
  intro c member
  obtain ⟨d, inside, rfl⟩ := List.mem_map.mp member
  rw [plain_hex os d inside, if_pos rfl]

private theorem readHeader_cuts (length : Octet) (front ref : List Octet) {total part : Octet}
    (three : (length :: front).length = 3) (size : length.val = 4 + ref.length)
    (few : ref.length = 1 ∨ ref.length = 2) (text : List Char) (type : NumType) (v : Vars) :
    readHeader (some type) (hex (length :: front ++ (ref ++ ([total] ++ [part]))) ++ text) v =
      { v with
        refNum := if type = .inter then hex ref else []
        totalPart := if type = .inter then Nat.toDigits 10 total.val else []
        serPart := if type = .inter then Nat.toDigits 10 part.val else []
        ud :=
          if v.dcs = ['0', '0'] then List.replicate (2 * (5 + ref.length)) '0' ++ text
          else if v.dcs = ['0', '8'] then text
          else v.ud } := by
  have octets : (length :: front ++ (ref ++ ([total] ++ [part]))).length = 5 + ref.length := by
    rw [List.length_append, three, List.length_append]
    change 3 + (ref.length + 2) = _
    omega
  have digits : ((hex (length :: front ++ (ref ++ ([total] ++ [part])))).length : Int) =
      2 * (5 + ref.length) := by
    rw [length_hex, octets]
    omega
  have some : hex ref ≠ [] := List.ne_nil_of_length_pos (by rw [length_hex]; omega)
  have one (o : Octet) : (hex [o]).length = 2 := rfl
  have six : (hex (length :: front)).length = 6 := by rw [length_hex, three]
  have head (cs : List Char) :
      cutTo 2 (hex (length :: front ++ (ref ++ ([total] ++ [part]))) ++ cs) = hex [length] := by
    rw [List.cons_append, ← List.singleton_append, hex_append, List.append_assoc]
    exact cutTo_append rfl
  have hl : (2 * (((hextoint (hex [length])).getD 0 : Nat) + 1) : Int) = 2 * (5 + ref.length) := by
    rw [hextoint_hex, Option.getD_some, size]
    omega
  have refNum : (if (2 * (5 + ref.length) : Int) = 12 then
        cutRange 7 8 (hex (length :: front ++ (ref ++ ([total] ++ [part]))))
      else if (2 * (5 + ref.length) : Int) = 14 then
        cutRange 7 10 (hex (length :: front ++ (ref ++ ([total] ++ [part]))))
      else v.refNum) = hex ref := by
    rw [hex_append, hex_append]
    rcases few with single | double
    · rw [if_pos (by omega)]
      exact cutRange_append (by rw [six]; rfl) (by rw [six, length_hex]; omega) some
    · rw [if_neg (by omega), if_pos (by omega)]
      exact cutRange_append (by rw [six]; rfl) (by rw [six, length_hex]; omega) some
  have totalPart : cutRange (2 * (5 + ref.length) - 3) (2 * (5 + ref.length) - 2)
      (hex (length :: front ++ (ref ++ ([total] ++ [part])))) = hex [total] := by
    have before : (hex (length :: front ++ ref)).length = 6 + 2 * ref.length := by
      rw [hex_append, List.length_append, six, length_hex]
    rw [← List.append_assoc, hex_append, hex_append [total]]
    refine cutRange_append ?_ ?_ (List.cons_ne_nil _ _)
    · rw [before]
      omega
    · rw [before, one]
      omega
  have serPart : cutFrom (2 * (5 + ref.length) - 1)
      (hex (length :: front ++ (ref ++ ([total] ++ [part])))) = hex [part] := by
    have before : (hex (length :: front ++ ref ++ [total])).length = 8 + 2 * ref.length := by
      rw [hex_append, hex_append, List.length_append, List.length_append, six, length_hex, one]
      omega
    rw [← List.append_assoc, ← List.append_assoc, hex_append]
    apply cutFrom_append
    rw [before]
    omega
  unfold readHeader
  dsimp only
  rw [head, hl, cutTo_append digits, cutFrom_append (by rw [digits]; omega), refNum, totalPart,
    serPart, hextoint_hex, hextoint_hex, zeros_hex, octets]
  cases type <;> simp [expand]

theorem readHeader_octets (h : Header) (text : List Char) (type : NumType) (v : Vars) :
    readHeader (some type) (hex h.octets ++ text) v =
      { v with
        refNum := if type = .inter then h.ref else []
        totalPart := if type = .inter then Nat.toDigits 10 h.total.val else []
        serPart := if type = .inter then Nat.toDigits 10 h.part.val else []
        ud :=
          if v.dcs = ['0', '0'] then List.replicate (2 * h.octets.length) '0' ++ text
          else if v.dcs = ['0', '8'] then text
          else v.ud } := by
  cases h with
  | short ref total part =>
    exact readHeader_cuts 5 [0, 3] [ref] rfl rfl (.inl rfl) text
      type v
  | long high low total part =>
    exact readHeader_cuts 6 [8, 4] [high, low] rfl rfl (.inr rfl)
      text type v

theorem readBody_front {pid dcs scts : List Char} (two : pid.length = 2) (two' : dcs.length = 2)
    (fourteen : scts.length = 14) (udhi : Bool) (type : NumType) (rest : List Char) (v : Vars) :
    readBody [udhi] (some type) (pid ++ (dcs ++ (scts ++ rest))) v =
      if udhi then readHeader (some type) (cutFrom 3 rest) { v with dcs := dcs, scts := scts }
      else { v with dcs := dcs, scts := scts, ud := cutFrom 3 rest } := by
  unfold readBody
  dsimp only
  rw [cutFrom_append (by omega), cutTo_append (by omega), cutFrom_append (by omega),
    cutTo_append (by omega), cutFrom_append (by omega)]
  cases udhi <;> rfl

theorem segment_eq (m : Deliver) :
    m.segment = if kind m.sender = .inter then m.header else none := by
  unfold Deliver.segment
  cases m.sender <;> rfl

def printed (v : Vars) : List (List Char) :=
  [v.oaNum, v.dcs, v.scts, v.refNum, v.totalPart, v.serPart, v.ud]

/-- Behind an address that was cut off where it ends all cuts are right. What is wrong then is
what a message without a header finds in the variables, and the user data of other coding schemes
behind a header. -/
theorem printed_body (m : Deliver) {v : Vars} (noRef : v.refNum = []) (noData : v.ud = []) :
    printed (readBody [m.header.isSome] (some (kind m.sender)) m.body v) = m.fields ↔
      v.oaNum = m.sender.address ∧ (m.header = none → v.totalPart = [] ∧ v.serPart = []) ∧
        (m.header ≠ none → m.Coded) := by
  have fourteen : (hex m.scts).length = 14 := by rw [length_hex, m.scts_size]
  unfold Deliver.body Deliver.fields Deliver.userData Deliver.headerOctets
  rw [readBody_front rfl rfl fourteen, cutFrom_append (n := 3) (by rw [length_hex]; rfl),
    segment_eq]
  cases m.header with
  | none => simp [printed, noRef, hex]
  | some h =>
    have octets : hex h.octets ≠ [] := by cases h <;> exact List.cons_ne_nil _ _
    have eight : (0 : Octet) ≠ 8 := by decide
    simp only [Option.isSome_some, if_true, Option.elim_some, readHeader_octets, printed, noData,
      zero_hex, eight_hex]
    by_cases zero : m.dcs = 0
    · cases kind m.sender <;> simp [Deliver.Coded, zero]
    · by_cases ucs2 : m.dcs = 8
      · cases kind m.sender <;> simp [Deliver.Coded, ucs2, eight.symm]
      · cases kind m.sender <;> simp [Deliver.Coded, zero, ucs2, octets]

end Body

section Address

private theorem digit_ne_F : ∀ d : Fin 15, digit d.val ≠ 'F' := by
  decide

def digitsOf (ds : List (Fin 15)) : List Char := ds.map fun d => digit d.val

theorem pairs_append {ds : List (Fin 15)} (even : ds.length % 2 = 0) (es : List (Fin 15)) :
    pairs (ds ++ es) = pairs ds ++ pairs es := by
  induction ds using pairs.induct with
  | case1 => rfl
  | case2 a => cases even
  | case3 a b ds ih =>
    have shorter : ds.length % 2 = 0 := by
      rw [List.length_cons, List.length_cons] at even
      omega
    simp only [List.cons_append, pairs, ih shorter]

theorem swapPairs_pairs {ds : List (Fin 15)} (even : ds.length % 2 = 0) (cs : List Char) :
    swapPairs (pairs ds ++ cs) = digitsOf ds ++ swapPairs cs := by
  induction ds using pairs.induct with
  | case1 => rfl
  | case2 a => cases even
  | case3 a b ds ih =>
    have shorter : ds.length % 2 = 0 := by
      rw [List.length_cons, List.length_cons] at even
      omega
    simp only [pairs, List.cons_append, swapPairs, ih shorter, digitsOf, List.map_cons]

theorem exists_last {ds : List (Fin 15)} (odd : ds.length % 2 = 1) :
    ∃ init a, ds = init ++ [a] ∧ init.length % 2 = 0 := by
  obtain ⟨init, a, rfl⟩ := List.eq_nil_or_concat'  ds |>.resolve_left (by rintro rfl; cases odd)
  refine ⟨init, a, rfl, ?_⟩
  rw [List.length_append, List.length_singleton] at odd
  omega

theorem strip_digits (ds : List (Fin 15)) (cs : List Char) (number : swapPairs cs = digitsOf ds) :
    getNumber cs = digitsOf ds := by
  have last : (digitsOf ds).getLast? ≠ some 'F' := by
    intro wrong
    obtain ⟨d, _, digit⟩ := List.mem_map.mp (List.mem_of_mem_getLast? wrong)
    exact digit_ne_F d digit
  rw [getNumber, number]
  exact if_neg last

theorem strip_last (ds : List (Fin 15)) {c : Char} {cs : List Char}
    (number : swapPairs cs = digitsOf ds ++ [c]) :
    getNumber cs = if c = 'F' then digitsOf ds else digitsOf ds ++ [c] := by
  rw [getNumber, number]
  simp

theorem pairs_odd {init : List (Fin 15)} (even : init.length % 2 = 0) (a : Fin 15) :
    pairs (init ++ [a]) = pairs init ++ ['F', digit a.val] := by
  rw [pairs_append even]
  rfl

/-- Where the cuts of the code are right: numbers of an odd number of digits, if they are
international, and of an even one, if their type is unknown. -/
def Cut : Sender → Prop
  | .international number => number.length % 2 = 1
  | .unknown number => number.length % 2 = 0
  | .alphanumeric _ _ _ _ => True

/-- What the code makes of an address that is cut off where it ends. -/
def decoded (s : Sender) : List Char :=
  match s with
  | .alphanumeric _ _ _ _ => (chars s.letters).rdropWhile fun c => c = '\n'
  | _ => s.address

theorem textOf_name {n : Nat} {name : List Octet} (size : 2 * name.length = n + n % 2)
    (fill : ∀ s ∈ (septets (name.map Fin.val)).drop (4 * n / 7), s = 0) :
    textOf (name.map Fin.val) = chars (Sender.alphanumeric n name size fill).letters := by
  have nothing : chars ((septets (name.map Fin.val)).drop (4 * n / 7)) = [] := by
    rw [chars, List.filter_eq_nil_iff.mpr fun s member => by simp [fill s member]]
    rfl
  have parts := chars_append ((septets (name.map Fin.val)).take (4 * n / 7))
    ((septets (name.map Fin.val)).drop (4 * n / 7))
  rwa [List.take_append_drop, nothing, List.append_nil] at parts

theorem readAddress_cut {s : Sender} (cut : Cut s) (body : List Char) (v : Vars) :
    readAddress (some (kind s)) s.semiOctets (s.value ++ body) v =
      ({ v with oaNum := decoded s }, body) := by
  have size := length_value s
  cases s with
  | international ds =>
    have odd : ds.length % 2 = 1 := cut
    have length : ((pairs ds).length : Int) = 1 + ds.length := by
      rw [length_pairs, odd]
      omega
    obtain ⟨init, a, rfl, even⟩ := exists_last odd
    have number : swapPairs (pairs (init ++ [a])) = digitsOf (init ++ [a]) ++ ['F'] := by
      rw [pairs_odd even, swapPairs_pairs even]
      simp [swapPairs, digitsOf]
    unfold readAddress kind Sender.semiOctets Sender.value
    dsimp only
    rw [cutTo_append length, cutFrom_append (by omega), strip_last _ number, if_pos rfl]
    rfl
  | unknown ds =>
    have even : ds.length % 2 = 0 := cut
    have length : ((pairs ds).length : Int) = ds.length := by
      rw [length_pairs, even]
      rfl
    have number : swapPairs (pairs ds) = digitsOf ds := by
      simpa [swapPairs] using swapPairs_pairs even []
    unfold readAddress kind Sender.semiOctets Sender.value
    dsimp only
    rw [cutTo_append length, cutFrom_append (by omega), strip_digits _ _ number]
    rfl
  | alphanumeric n name whole fill =>
    have length : ((hex name).length : Int) = n + n % 2 := by
      rw [length_hex, whole]
      omega
    have text : substitute (gsmdecode (hex name)) =
        decoded (Sender.alphanumeric n name whole fill) := by
      rw [hex_val, decoded, ← textOf_name]
      apply substitute_gsmdecode
      intro o member
      obtain ⟨octet, _, rfl⟩ := List.mem_map.mp member
      exact octet.isLt
    unfold readAddress kind Sender.semiOctets Sender.value
    dsimp only
    split
    · rw [cutTo_append (by omega), cutFrom_append (by omega), text]
    · rw [cutTo_append (by omega), cutFrom_append (by omega), text]

/-- An international number of an even number of digits takes one digit of the protocol
identifier. -/
theorem readAddress_even {ds : List (Fin 15)} (even : ds.length % 2 = 0) (c : Char)
    (body : List Char) (v : Vars) :
    readAddress (some .inter) ds.length (pairs ds ++ c :: body) v =
      ({ v with oaNum := if c = 'F' then digitsOf ds else digitsOf ds ++ [c] }, body) := by
  have length : ((pairs ds ++ [c]).length : Int) = 1 + ds.length := by
    rw [List.length_append, length_pairs, even, List.length_singleton]
    omega
  have number : swapPairs (pairs ds ++ [c]) = digitsOf ds ++ [c] := swapPairs_pairs even [c]
  have regroup : pairs ds ++ c :: body = (pairs ds ++ [c]) ++ body := by simp
  unfold readAddress
  dsimp only
  rw [regroup, cutTo_append length, cutFrom_append (by omega), strip_last _ number]

theorem readAddress_odd {init : List (Fin 15)} (even : init.length % 2 = 0) (a : Fin 15)
    (body : List Char) (v : Vars) :
    (readAddress (some .unknown) (init.length + 1 : Nat) (pairs (init ++ [a]) ++ body) v).1 =
      { v with oaNum := digitsOf init } := by
  have length : ((pairs init ++ ['F']).length : Int) = (init.length + 1 : Nat) := by
    rw [List.length_append, length_pairs, even]
    rfl
  have number : swapPairs (pairs init ++ ['F']) = digitsOf init ++ ['F'] :=
    swapPairs_pairs even ['F']
  have regroup : pairs (init ++ [a]) ++ body = (pairs init ++ ['F']) ++ digit a.val :: body := by
    rw [pairs_odd even]
    simp
  unfold readAddress
  dsimp only
  rw [regroup, cutTo_append length, strip_last _ number, if_pos rfl]

end Address

end IecUtils.Sms.Split
