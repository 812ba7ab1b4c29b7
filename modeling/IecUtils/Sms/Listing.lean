/- Module: IecUtils/Sms/Listing
   source: smsparse of scripts/utils/sms_utils, on a listing
   digest: A listing is split into the records of its messages, unless some are cut wrongly. -/

import IecUtils.Sms.Record

set_option autoImplicit false
set_option relaxedAutoImplicit false

namespace IecUtils.Sms.Listing

open IecUtils.Foundation.Builtins
open IecUtils.Foundation.Hex hiding value
open IecUtils.Foundation.Septets hiding value
open IecUtils.Foundation.Words
open IecUtils.Sms.Shell
open IecUtils.Sms.Pdu
open IecUtils.Sms.Parse
open IecUtils.Sms.Split
open IecUtils.Sms.Record

section Message

/-- An entry of a listing: its index, the rest of the line in front of the message, which holds
the status and the length, and the message. -/
structure Listed where
  index : List Char
  rest : List Char
  message : Deliver
  index_some : index ≠ []
  index_digits : ∀ c ∈ index, c.isDigit = true
  rest_digits : ∀ c ∈ rest, c.isDigit = true ∨ c = ','

/-- A line with the fields of a record, the index and what the message has to say. -/
def Carries (l : Listed) (chunk : List Char) : Prop :=
  Prints (l.index :: l.message.fields) chunk

/-- What one turn leaves to the next: a part count and a part number, if the last message with a
header came from an international number. -/
structure Kept (stale : Bool) (v : Vars) : Prop where
  reset : v.oaNum = [] ∧ v.refNum = [] ∧ v.ud = []
  tidy : Tidy v
  fresh : stale = false → v.totalPart = [] ∧ v.serPart = []
  left : stale = true → v.totalPart ≠ []

def Shiftable (m : Deliver) : Prop :=
  m.header = none ∧ m.text = [] ∧ m.pid.val / 16 = 15 ∧
    ∃ d, hex [m.dcs] ++ hex m.scts ++ (hex [m.udl]).take 1 = List.replicate 17 d

def Agreed (s : Sender) : Prop := ∀ a ∈ s.letters, alphabet a = Char.ofNat a

/-- Messages whose address is cut off where it ends, or a name that is printed as it is: in
characters that have the same number in the alphabet of GSM, and in one field. -/
def Apart (m : Deliver) : Prop :=
  match m.sender with
  | .international number => number.length % 2 = 1 ∨ Shiftable m
  | .unknown number => number.length % 2 = 0
  | .alphanumeric _ _ _ _ =>
      Agreed m.sender ∧ Sound m.sender.address

def Splits (stale : Bool) (m : Deliver) : Prop :=
  Apart m ∧ (m.header = none → stale = false) ∧ (m.header ≠ none → m.Coded)

def staleAfter (stale : Bool) (m : Deliver) : Bool :=
  if m.header = none then stale else kind m.sender = .inter

theorem fresh_iff {stale : Bool} {v : Vars} (kept : Kept stale v) :
    v.totalPart = [] ∧ v.serPart = [] ↔ stale = false := by
  constructor
  · intro none
    by_contra some
    exact kept.left ((Bool.not_eq_false _).mp some) none.1
  · exact kept.fresh

theorem plain_index (l : Listed) : Plain l.index := by
  intro c member
  rw [Char.isAlphanum, l.index_digits c member, Bool.or_true]

theorem sound_number (ds : List (Fin 15)) : Sound (digitsOf ds) := sound_plain (plain_digitsOf ds)

theorem fields_cons (m : Deliver) : m.fields = m.sender.address :: m.fields.tail := rfl

/-- The variables are right if the address was cut off where it ends and decoded, and nothing is
left over or left out. -/
theorem printed_cut (m : Deliver) {stale : Bool} {v : Vars} (kept : Kept stale v)
    (cut : Cut m.sender) :
    printed (readPdu m.pdu v) = m.fields ↔
      decoded m.sender = m.sender.address ∧ (m.header = none → stale = false) ∧
        (m.header ≠ none → m.Coded) := by
  obtain ⟨_, noRef, noData⟩ := kept.reset
  have right := printed_body m (v := { v with oaNum := decoded m.sender }) noRef noData
  rw [readPdu_pdu, readAddress_cut cut, right, ← fresh_iff kept]

theorem readHeader_shifted (h : Header) (text : List Char) (v : Vars) :
    (readHeader (some .inter) (hex h.octets ++ text).tail v).refNum = v.refNum := by
  cases h with
  | short ref total part =>
    have length : cutTo 2 (hex (Header.short ref total part).octets ++ text).tail = ['5', '0'] :=
      rfl
    have eighty : hextoint ['5', '0'] = some 80 := by decide
    unfold readHeader
    dsimp only
    rw [length, eighty]
    rfl
  | long high low total part =>
    have length : cutTo 2 (hex (Header.long high low total part).octets ++ text).tail =
        ['6', '0'] := rfl
    have ninetySix : hextoint ['6', '0'] = some 96 := by decide
    unfold readHeader
    dsimp only
    rw [length, ninetySix]
    rfl

theorem shift_fixed {α : Type} {x y : α} {xs : List α} :
    xs ++ [y] = x :: xs ↔ ∃ c, x :: xs ++ [y] = List.replicate (xs.length + 2) c := by
  induction xs generalizing x with
  | nil =>
    simp only [List.nil_append, List.cons.injEq, and_true, List.length_nil, Nat.zero_add,
      List.singleton_append, List.replicate_succ, List.replicate_zero]
    constructor
    · rintro rfl
      exact ⟨y, rfl, rfl⟩
    · rintro ⟨c, rfl, rfl⟩
      rfl
  | cons a xs ih =>
    rw [List.cons_append, List.cons.injEq, ih, List.length_cons]
    constructor
    · rintro ⟨rfl, c, all⟩
      have first : a = c := (List.cons.inj all).1
      exact ⟨c, by rw [List.cons_append, all, first]; rfl⟩
    · rintro ⟨c, all⟩
      obtain ⟨first, later⟩ := List.cons.inj all
      have second : a = c := (List.cons.inj later).1
      exact ⟨by rw [first, second], c, later⟩

theorem tail_fixed {α : Type} {cs : List α} : cs.tail = cs ↔ cs = [] := by
  constructor
  · intro same
    have length := congrArg List.length same
    rw [List.length_tail] at length
    exact List.length_eq_zero_iff.mp (by omega)
  · rintro rfl
    rfl

theorem readBody_tail (m : Deliver) (type : NumType) (v : Vars) {x c : Char} {xs : List Char}
    (digits : hex [m.dcs] ++ hex m.scts = x :: xs) (next : (hex [m.udl]).head? = some c) :
    readBody [m.header.isSome] (some type) m.body.tail v =
      let rest := (hex m.headerOctets ++ hex m.text).tail
      let v := { v with dcs := (xs ++ [c]).take 2, scts := (xs ++ [c]).drop 2 }
      if m.header.isSome then readHeader (some type) rest v else { v with ud := rest } := by
  obtain ⟨p, q, pid⟩ : ∃ p q, hex [m.pid] = [p, q] := ⟨_, _, rfl⟩
  obtain ⟨c', d, udl⟩ : ∃ c' d, hex [m.udl] = [c', d] := ⟨_, _, rfl⟩
  rw [udl] at next
  obtain rfl : c' = c := Option.some.inj next
  have length : (xs ++ [c']).length = 16 := by
    have whole := congrArg List.length digits
    rw [List.length_append, length_hex, length_hex, m.scts_size, List.length_cons] at whole
    rw [List.length_append]
    exact whole.symm
  have body : m.body.tail = [q, x] ++ ((xs ++ [c']).take 2 ++ ((xs ++ [c']).drop 2 ++
      d :: (hex m.headerOctets ++ hex m.text))) := by
    rw [← List.append_assoc ((xs ++ [c']).take 2), List.take_append_drop]
    unfold Deliver.body
    rw [pid, ← List.append_assoc (hex [m.dcs]), digits, udl]
    simp
  have two : ((xs ++ [c']).take 2).length = 2 := by
    rw [List.length_take, length]
    rfl
  have fourteen : ((xs ++ [c']).drop 2).length = 14 := by rw [List.length_drop, length]
  have skip (cs : List Char) : cutFrom 3 (d :: cs) = cs.tail := by
    cases cs <;> rfl
  rw [body, readBody_front rfl two fourteen, skip]

/-- With one digit too many taken away a record is right only if there is no header, no text, and
one digit in the coding scheme, the time stamp and the beginning of the length. -/
theorem printed_tail (m : Deliver) (inter : m.segment = m.header) {v : Vars}
    (noRef : v.refNum = []) :
    printed (readBody [m.header.isSome] (some .inter) m.body.tail v) = m.fields ↔
      v.oaNum = m.sender.address ∧ m.header = none ∧ (v.totalPart = [] ∧ v.serPart = []) ∧
        m.text = [] ∧
          ∃ d, hex [m.dcs] ++ hex m.scts ++ (hex [m.udl]).take 1 = List.replicate 17 d := by
  obtain ⟨x, xs, digits⟩ : ∃ x xs, hex [m.dcs] ++ hex m.scts = x :: xs := ⟨_, _, rfl⟩
  obtain ⟨c, d, udl⟩ : ∃ c d, hex [m.udl] = [c, d] := ⟨_, _, rfl⟩
  have length : xs.length = 15 := by
    have whole := congrArg List.length digits
    rw [List.length_append, length_hex, length_hex, m.scts_size, List.length_cons] at whole
    exact (Nat.succ.inj whole).symm
  rw [readBody_tail m .inter v digits (by rw [udl]; rfl)]
  dsimp only
  cases header : m.header with
  | some h =>
    constructor
    · intro same
      have octets : m.headerOctets = h.octets := by rw [Deliver.headerOctets, header]; rfl
      have fourth : (readHeader (some .inter) (hex m.headerOctets ++ hex m.text).tail _).refNum =
          m.segment.elim [] Header.ref := congrArg (fun fs => fs.getD 3 []) same
      rw [octets, readHeader_shifted, inter, header] at fourth
      have ref : h.ref = [] := fourth.symm.trans noRef
      cases h <;> cases ref
    · rintro ⟨_, none, _⟩
      cases none
  | none =>
    have octets : m.headerOctets = [] := by rw [Deliver.headerOctets, header]; rfl
    have userData : m.userData = hex m.text := by
      unfold Deliver.userData
      rw [octets]
      split_ifs <;> rfl
    have text : (hex m.text).tail = hex m.text ↔ m.text = [] := by
      rw [tail_fixed, ← List.length_eq_zero_iff, length_hex, ← List.length_eq_zero_iff]
      omega
    have shift : ((xs ++ [c]).take 2 = hex [m.dcs] ∧ (xs ++ [c]).drop 2 = hex m.scts) ↔
        ∃ d, hex [m.dcs] ++ hex m.scts ++ (hex [m.udl]).take 1 = List.replicate 17 d := by
      have seventeen : xs.length + 2 = 17 := by rw [length]
      rw [digits, udl, ← seventeen]
      change _ ↔ ∃ d, x :: xs ++ [c] = _
      rw [← shift_fixed, ← digits]
      constructor
      · rintro ⟨first, second⟩
        rw [← first, ← second, List.take_append_drop]
      · intro same
        rw [same]
        exact ⟨rfl, rfl⟩
    rw [← shift, ← text]
    simp only [Deliver.fields, inter, header, userData, octets, noRef, printed, Option.elim_none,
      Option.isSome_none, Bool.false_eq_true, if_false, hex, List.flatMap_nil, List.nil_append,
      List.cons.injEq, and_true, true_and]
    tauto

private theorem high_digit : ∀ o : Octet, digit (o.val / 16 % 16) = 'F' ↔ o.val / 16 = 15 := by
  decide +kernel

/-- An international number of an even number of digits comes out right only in front of digits
that look the same one place later. -/
theorem printed_even (m : Deliver) {stale : Bool} {v : Vars} (kept : Kept stale v)
    {ds : List (Fin 15)} (sender : m.sender = .international ds) (even : ds.length % 2 = 0) :
    printed (readPdu m.pdu v) = m.fields ↔ Shiftable m ∧ stale = false := by
  obtain ⟨_, noRef, noData⟩ := kept.reset
  have address : m.sender.address = digitsOf ds := by
    rw [sender]
    rfl
  have segment : m.segment = m.header := by
    rw [segment_eq, sender]
    rfl
  have turn := readAddress_even even (digit (m.pid.val / 16 % 16)) m.body.tail v
  have body : pairs ds ++ digit (m.pid.val / 16 % 16) :: m.body.tail = pairs ds ++ m.body := rfl
  rw [body] at turn
  generalize number : (if digit (m.pid.val / 16 % 16) = 'F' then digitsOf ds
    else digitsOf ds ++ [digit (m.pid.val / 16 % 16)]) = oaNum at turn
  have right : oaNum = digitsOf ds ↔ m.pid.val / 16 = 15 := by
    rw [← number, ← high_digit]
    split
    · rename_i filler
      simp [filler]
    · rename_i other
      simp [other]
  rw [readPdu_pdu, sender]
  change printed (readBody [m.header.isSome] (some .inter)
    (readAddress (some .inter) ds.length (pairs ds ++ m.body) v).2
    (readAddress (some .inter) ds.length (pairs ds ++ m.body) v).1) = _ ↔ _
  have fields := printed_tail m segment (v := { v with oaNum := oaNum }) noRef
  rw [turn, fields, address, right]
  unfold Shiftable
  rw [← fresh_iff kept]
  tauto

theorem printed_odd (m : Deliver) (v : Vars) {ds : List (Fin 15)} (sender : m.sender = .unknown ds)
    (odd : ds.length % 2 = 1) : printed (readPdu m.pdu v) ≠ m.fields := by
  obtain ⟨init, a, rfl, even⟩ := exists_last odd
  have address : m.sender.address = digitsOf (init ++ [a]) := by
    rw [sender]
    rfl
  have turn := readAddress_odd even a m.body v
  have semiOctets : (init ++ [a]).length = init.length + 1 := by simp
  rw [readPdu_pdu, sender]
  change printed (readBody [m.header.isSome] (some .unknown)
    (readAddress (some .unknown) (init ++ [a]).length (pairs (init ++ [a]) ++ m.body) v).2
    (readAddress (some .unknown) (init ++ [a]).length (pairs (init ++ [a]) ++ m.body) v).1) ≠ _
  rw [semiOctets, turn]
  intro fields
  have number := (List.cons.inj fields).1
  rw [readBody_oaNum, address] at number
  have length := congrArg List.length number
  simp [digitsOf] at length

theorem printed_iff (m : Deliver) {stale : Bool} {v : Vars} (kept : Kept stale v)
    (number : kind m.sender ≠ .alphanum) :
    printed (readPdu m.pdu v) = m.fields ↔ Splits stale m := by
  unfold Splits Apart
  cases sender : m.sender with
  | international ds =>
    rcases Nat.mod_two_eq_zero_or_one ds.length with even | odd
    · rw [printed_even m kept sender even]
      constructor
      · rintro ⟨shiftable, fresh⟩
        exact ⟨.inr shiftable, fun _ => fresh, fun some => absurd shiftable.1 some⟩
      · rintro ⟨odd | shiftable, fresh, _⟩
        · rw [even] at odd
          cases odd
        · exact ⟨shiftable, fresh shiftable.1⟩
    · have same : decoded m.sender = m.sender.address := by rw [sender]; rfl
      rw [printed_cut m kept (by rw [sender]; exact odd), and_iff_right same]
      exact (and_iff_right (.inl odd)).symm
  | unknown ds =>
    rcases Nat.mod_two_eq_zero_or_one ds.length with even | odd
    · have same : decoded m.sender = m.sender.address := by rw [sender]; rfl
      rw [printed_cut m kept (by rw [sender]; exact even), and_iff_right same]
      exact (and_iff_right even).symm
    · apply iff_of_false (printed_odd m v sender odd)
      rintro ⟨apart, _⟩
      have even : ds.length % 2 = 0 := apart
      rw [odd] at even
      cases even
  | alphanumeric n name size fill =>
    rw [sender] at number
    exact absurd rfl number

private theorem alphabet_blank : ∀ s < 128,
    alphabet s = (if isBlank (Char.ofNat s) then ' ' else Char.ofNat s) →
      alphabet s = Char.ofNat s := by
  decide +kernel

private theorem alphabet_other : ∀ s < 128, alphabet s = Char.ofNat s →
    s ≠ 0 ∧ Char.ofNat s ≠ '\\' ∧ Char.ofNat s ≠ '[' := by
  decide +kernel

theorem letters_lt (s : Sender) : ∀ a ∈ s.letters, a < 128 := by
  intro a member
  cases s with
  | alphanumeric n name size fill => exact septets_lt _ a (List.mem_of_mem_take member)
  | international ds => cases member
  | unknown ds => cases member

theorem decoded_of_agreed {s : Sender} (name : kind s = .alphanum) (agreed : Agreed s)
    (sound : Sound s.address) : decoded s = s.address := by
  cases s with
  | alphanumeric n octets size fill =>
    have address : chars (Sender.alphanumeric n octets size fill).letters =
        (Sender.alphanumeric n octets size fill).address := by
      rw [chars, List.filter_eq_self.mpr fun a member => ?_]
      · exact List.map_congr_left fun a member => (agreed a member).symm
      · exact decide_eq_true (alphabet_other a (letters_lt _ a member) (agreed a member)).1
    rw [decoded, address, List.rdropWhile_eq_self_iff]
    intro some isFeed
    have feed := of_decide_eq_true isFeed
    have blank := sound.2.same _ (List.getLast_mem some) (by rw [feed]; rfl)
    rw [feed] at blank
    cases blank
  | international ds => cases name
  | unknown ds => cases name

theorem length_decoded_le {s : Sender} (name : kind s = .alphanum) :
    (decoded s).length ≤ s.letters.length := by
  cases s with
  | alphanumeric n octets size fill =>
    have dropped := (List.rdropWhile_prefix (fun c => decide (c = '\n'))
      (l := chars (Sender.alphanumeric n octets size fill).letters)).length_le
    have filtered := List.length_filter_le (fun a => decide (a ≠ 0))
      (Sender.alphanumeric n octets size fill).letters
    rw [chars, List.length_map] at dropped
    exact dropped.trans filtered
  | international ds => cases name
  | unknown ds => cases name

theorem decoded_of_length {s : Sender} (name : kind s = .alphanum)
    (whole : s.letters.length ≤ (decoded s).length) : decoded s = s.letters.map Char.ofNat := by
  cases s with
  | alphanumeric n octets size fill =>
    have dropped := List.rdropWhile_prefix (fun c => decide (c = '\n'))
      (l := chars (Sender.alphanumeric n octets size fill).letters)
    have filtered := (List.filter_sublist (p := fun a => decide (a ≠ 0))
      (l := (Sender.alphanumeric n octets size fill).letters)).map Char.ofNat
    exact (dropped.sublist.trans filtered).eq_of_length_le (by rw [List.length_map]; exact whole)
  | international ds => cases name
  | unknown ds => cases name

theorem address_name {s : Sender} (name : kind s = .alphanum) :
    s.address = s.letters.map alphabet := by
  cases s with
  | alphanumeric n octets size fill => rfl
  | international ds => cases name
  | unknown ds => cases name

def Listed.record (l : Listed) : List Char := [':'].intercalate (l.index :: l.message.fields)

theorem tidy_of_kept {stale : Bool} {v : Vars} (kept : Kept stale v) (m : Deliver) :
    ∀ f ∈ (printed (readPdu m.pdu v)).tail, Plain f :=
  tidy_readPdu (plain_pdu m) kept.tidy

theorem carries_number_iff (files : Pathnames) (l : Listed) {stale : Bool} {v : Vars}
    (kept : Kept stale v) (number : kind l.message.sender ≠ .alphanum) :
    Carries l (record files l.index (readPdu l.message.pdu v)) ↔ Splits stale l.message := by
  have all : ∀ f ∈ printed (readPdu l.message.pdu v), Plain f :=
    List.forall_mem_cons.mpr ⟨plain_oaNum number v, tidy_of_kept kept l.message⟩
  exact (prints_plain_iff (plain_index l) all).trans (printed_iff l.message kept number)

theorem cut_name {s : Sender} (name : kind s = .alphanum) : Cut s := by
  cases s with
  | alphanumeric n octets size fill => trivial
  | international ds => cases name
  | unknown ds => cases name

theorem apart_name {m : Deliver} (name : kind m.sender = .alphanum) :
    Apart m ↔ Agreed m.sender ∧ Sound m.sender.address := by
  unfold Apart
  cases sender : m.sender with
  | alphanumeric n octets size fill => exact Iff.rfl
  | international ds => rw [sender] at name; cases name
  | unknown ds => rw [sender] at name; cases name

theorem splits_of_carries (l : Listed) {stale : Bool} {v : Vars} (kept : Kept stale v)
    (carries : Carries l (record .none l.index (readPdu l.message.pdu v))) :
    Splits stale l.message := by
  by_cases number : kind l.message.sender ≠ .alphanum
  · exact (carries_number_iff .none l kept number).mp carries
  have name : kind l.message.sender = .alphanum := not_not.mp number
  have cut := cut_name name
  have oaNum : (readPdu l.message.pdu v).oaNum = decoded l.message.sender := by
    rw [readPdu_pdu, readAddress_cut cut]
    exact readBody_oaNum _ _ _ _
  have address := address_name name
  have long : (decoded l.message.sender).length ≤ l.message.sender.address.length := by
    rw [address, List.length_map]
    exact length_decoded_le name
  have count : l.message.fields.tail.length = (printed (readPdu l.message.pdu v)).tail.length := rfl
  rw [Carries, fields_cons] at carries
  obtain ⟨tail, sound, own⟩ := address_of_prints (plain_index l) (tidy_of_kept kept l.message)
    (by rw [oaNum]; exact long) count carries
  rw [oaNum] at own
  have whole : decoded l.message.sender = l.message.sender.letters.map Char.ofNat := by
    apply decoded_of_length name
    have size := congrArg List.length own
    rw [address, List.length_map, List.length_map] at size
    exact Nat.le_of_eq size
  have agreed : Agreed l.message.sender := by
    rw [address, whole, List.map_map] at own
    intro a member
    exact alphabet_blank a (letters_lt _ a member) (List.map_inj_left.mp own a member)
  have same := decoded_of_agreed name agreed sound
  have fields : printed (readPdu l.message.pdu v) = l.message.fields := by
    change (readPdu l.message.pdu v).oaNum :: (printed (readPdu l.message.pdu v)).tail = _
    rw [oaNum, same, tail]
    rfl
  exact ⟨(apart_name name).mpr ⟨agreed, sound⟩, ((printed_cut l.message kept cut).mp fields).2⟩

/-- A message that is split leaves its fields in the variables, and its address is literal but for
patterns. -/
theorem fields_of_splits (m : Deliver) {stale : Bool} {v : Vars} (kept : Kept stale v)
    (splits : Splits stale m) :
    printed (readPdu m.pdu v) = m.fields ∧ Sound m.sender.address ∧
      ∀ c ∈ m.sender.address, c ≠ '\\' ∧ c ≠ '[' := by
  have number {ds : List (Fin 15)} (address : m.sender.address = digitsOf ds)
      (digits : kind m.sender ≠ .alphanum) :
      printed (readPdu m.pdu v) = m.fields ∧ Sound m.sender.address ∧
        ∀ c ∈ m.sender.address, c ≠ '\\' ∧ c ≠ '[' := by
    refine ⟨(printed_iff m kept digits).mpr splits, by rw [address]; exact sound_number ds, ?_⟩
    rw [address]
    intro c member
    obtain ⟨_, pattern, backslash, _⟩ := alphanum_other (plain_digitsOf ds c member)
    refine ⟨backslash, ?_⟩
    rintro rfl
    cases pattern
  cases sender : m.sender with
  | international ds =>
    exact sender ▸ number (by rw [sender]; rfl) (by rw [sender]; exact nofun)
  | unknown ds =>
    exact sender ▸ number (by rw [sender]; rfl) (by rw [sender]; exact nofun)
  | alphanumeric n octets size fill =>
    have name : kind m.sender = .alphanum := by rw [sender]; rfl
    obtain ⟨agreed, sound⟩ := (apart_name name).mp splits.1
    have cut := cut_name name
    rw [← sender]
    refine ⟨(printed_cut m kept cut).mpr ⟨decoded_of_agreed name agreed sound, splits.2⟩, sound, ?_⟩
    rw [address_name name]
    intro c member
    obtain ⟨a, inside, rfl⟩ := List.mem_map.mp member
    rw [agreed a inside]
    exact (alphabet_other a (letters_lt _ a inside) (agreed a inside)).2

theorem record_of_splits (files : Pathnames) (l : Listed) {stale : Bool} {v : Vars}
    (kept : Kept stale v) (splits : Splits stale l.message) :
    record files l.index (readPdu l.message.pdu v) = echo (files.unquoted l.record) := by
  unfold Listed.record
  rw [← (fields_of_splits l.message kept splits).1]
  rfl

theorem plain_fields (m : Deliver) : ∀ f ∈ m.fields.tail, Plain f := by
  have zeros (n : Nat) : Plain (List.replicate n '0') := by
    intro c member
    rw [(List.mem_replicate.mp member).2]
    rfl
  have ref : Plain (m.segment.elim [] Header.ref) := by
    cases m.segment with
    | none => exact plain_nil
    | some h => cases h <;> exact plain_hex _
  have counts (count : Header → Octet) :
      Plain (m.segment.elim [] fun h => Nat.toDigits 10 (count h).val) := by
    cases m.segment with
    | none => exact plain_nil
    | some h => exact plain_toDigits _
  have data : Plain m.userData := by
    unfold Deliver.userData
    split_ifs
    · exact plain_append (zeros _) (plain_hex _)
    · exact plain_hex _
    · exact plain_append (plain_hex _) (plain_hex _)
  unfold Deliver.fields
  simp only [List.tail_cons, List.forall_mem_cons]
  exact ⟨plain_hex _, plain_hex _, ref, counts _, counts _, data, nofun⟩

/-- A record in which `echo` finds nothing to change. -/
structure Literal (l : Listed) : Prop where
  fields : ∀ f ∈ l.index :: l.message.fields, Sound f
  spaced : rejoin isBlank ' ' l.record = l.record
  option : l.record.head? ≠ some '-'
  plain : ∀ c ∈ l.record, c ≠ '\\' ∧ c ≠ '[' ∧ c ≠ '\n'

theorem literal_of_splits (l : Listed) {stale : Bool} {v : Vars} (kept : Kept stale v)
    (splits : Splits stale l.message) : Literal l := by
  obtain ⟨fields, sound, literal⟩ := fields_of_splits l.message kept splits
  have address : (readPdu l.message.pdu v).oaNum = l.message.sender.address :=
    (List.cons.inj fields).1
  have rest := plain_fields l.message
  have all : ∀ f ∈ l.index :: l.message.fields, Sound f := by
    rw [fields_cons]
    exact List.forall_mem_cons.mpr ⟨sound_plain (plain_index l),
      List.forall_mem_cons.mpr ⟨sound, fun f among => sound_plain (rest f among)⟩⟩
  constructor
  · exact all
  · unfold Listed.record
    rw [← fields, rejoin_line (plain_index l) (tidy_of_kept kept l.message), address,
      squeeze_of_spaced sound.2, line_parts, address]
  · unfold Listed.record
    rw [head?_intercalate l.index_some]
    intro first
    cases plain_index l _ (List.mem_of_mem_head? first)
  · intro c member
    rcases mem_intercalate member with rfl | ⟨f, among, inside⟩
    · decide
    · have feed : c ≠ '\n' := by
        rintro rfl
        cases (all f among).2.same '\n' inside rfl
      have other (plain : Plain f) : c ≠ '\\' ∧ c ≠ '[' := by
        constructor <;> (rintro rfl; cases plain _ inside)
      rw [fields_cons] at among
      rcases List.mem_cons.mp among with rfl | among
      · exact and_assoc.mp ⟨other (plain_index l), feed⟩
      · rcases List.mem_cons.mp among with rfl | among
        · exact and_assoc.mp ⟨literal c inside, feed⟩
        · exact and_assoc.mp ⟨other (rest f among), feed⟩

theorem carries_of_literal {l : Listed} (literal : Literal l) {chunk : List Char} :
    Carries l chunk ↔ chunk = l.record ++ ['\n'] := by
  refine (prints_iff (List.cons_ne_nil _ _) ?_).trans (and_iff_left fun f among => ?_)
  · exact fun feed => (literal.plain _ feed).2.2 rfl
  · exact (literal.fields f among).1

/-- A message that is split is printed as it should be, in a directory where no word of its record
is expanded. -/
theorem carries_of_splits (files : Pathnames) (l : Listed) {stale : Bool} {v : Vars}
    (kept : Kept stale v) (splits : Splits stale l.message)
    (left : ∀ w ∈ words isBlank l.record, files.expand w = [w]) :
    Carries l (record files l.index (readPdu l.message.pdu v)) := by
  have literal := literal_of_splits l kept splits
  rw [record_of_splits files l kept splits, carries_of_literal literal]
  exact echo_unquoted literal.spaced literal.option (fun inside => (literal.plain _ inside).1 rfl)
    left

theorem pattern_record {l : Listed}
    (none : ∀ c ∈ l.message.sender.address, isPattern c = false) :
    ∀ c ∈ l.record, isPattern c = false := by
  intro c member
  rcases mem_intercalate member with rfl | ⟨f, among, inside⟩
  · decide
  · rw [fields_cons] at among
    rcases List.mem_cons.mp among with rfl | among
    · exact (alphanum_other (plain_index l c inside)).2.1
    · rcases List.mem_cons.mp among with rfl | among
      · exact none c inside
      · exact (alphanum_other (plain_fields l.message f among c inside)).2.1

theorem address_subset_record (l : Listed) : l.message.sender.address ⊆ l.record := by
  apply subset_intercalate
  rw [fields_cons]
  exact List.mem_cons_of_mem _ List.mem_cons_self

theorem readAddress_counts (type : Option NumType) (n : Int) (pdu : List Char) (v : Vars) :
    (readAddress type n pdu v).1.totalPart = v.totalPart ∧
      (readAddress type n pdu v).1.serPart = v.serPart := by
  unfold readAddress
  split
  · exact ⟨rfl, rfl⟩
  · split <;> exact ⟨rfl, rfl⟩
  · exact ⟨rfl, rfl⟩
  · exact ⟨rfl, rfl⟩

theorem counts_of_none (m : Deliver) (v : Vars) (header : m.header = none) :
    (readPdu m.pdu v).totalPart = v.totalPart ∧ (readPdu m.pdu v).serPart = v.serPart := by
  rw [readPdu_pdu, header]
  exact readAddress_counts _ _ _ v

theorem cut_of_header {m : Deliver} (apart : Apart m) {h : Header} (header : m.header = some h) :
    Cut m.sender := by
  unfold Apart at apart
  cases sender : m.sender with
  | international ds =>
    rw [sender] at apart
    apply apart.resolve_right
    rintro ⟨none, _⟩
    rw [header] at none
    cases none
  | unknown ds =>
    rw [sender] at apart
    exact apart
  | alphanumeric n name size => trivial

theorem counts_of_some (m : Deliver) (v : Vars) {h : Header} (header : m.header = some h)
    (cut : Cut m.sender) :
    (readPdu m.pdu v).totalPart =
        (if kind m.sender = .inter then Nat.toDigits 10 h.total.val else []) ∧
      (readPdu m.pdu v).serPart =
        if kind m.sender = .inter then Nat.toDigits 10 h.part.val else [] := by
  have fourteen : (hex m.scts).length = 14 := by rw [length_hex, m.scts_size]
  have octets : m.headerOctets = h.octets := by rw [Deliver.headerOctets, header]; rfl
  have udl : ((hex [m.udl]).length : Int) + 1 = 3 := by rw [length_hex]; rfl
  rw [readPdu_pdu, readAddress_cut cut, header]
  dsimp only
  unfold Deliver.body
  rw [readBody_front rfl rfl fourteen, cutFrom_append udl, octets, Option.isSome_some, if_pos rfl,
    readHeader_octets]
  exact ⟨rfl, rfl⟩

theorem kept_after (m : Deliver) {stale : Bool} {v : Vars} (kept : Kept stale v)
    (splits : Splits stale m) : Kept (staleAfter stale m) (readPdu m.pdu v).reset := by
  have reset {w : Vars} {stale : Bool} (total : Plain w.totalPart) (ser : Plain w.serPart)
      (fresh : stale = false → w.totalPart = [] ∧ w.serPart = [])
      (left : stale = true → w.totalPart ≠ []) : Kept stale w.reset :=
    ⟨⟨rfl, rfl, rfl⟩, tidy_iff.mpr ⟨plain_nil, plain_nil, plain_nil, total, ser, plain_nil⟩, fresh,
      left⟩
  unfold staleAfter
  cases header : m.header with
  | none =>
    obtain ⟨_, _, _, total, ser, _⟩ := tidy_iff.mp kept.tidy
    obtain ⟨sameTotal, sameSer⟩ := counts_of_none m v header
    rw [if_pos rfl]
    apply reset
    · rwa [sameTotal]
    · rwa [sameSer]
    · rw [sameTotal, sameSer]
      exact kept.fresh
    · rw [sameTotal]
      exact kept.left
  | some h =>
    obtain ⟨total, ser⟩ := counts_of_some m v header (cut_of_header splits.1 header)
    rw [if_neg (Option.some_ne_none h)]
    apply reset
    · rw [total]
      split
      · exact plain_toDigits _
      · exact plain_nil
    · rw [ser]
      split
      · exact plain_toDigits _
      · exact plain_nil
    · intro other
      have kinds : kind m.sender ≠ .inter := by simpa using other
      rw [total, ser, if_neg kinds, if_neg kinds]
      exact ⟨rfl, rfl⟩
    · intro same
      have kinds : kind m.sender = .inter := by simpa using same
      rw [total, if_pos kinds]
      exact Nat.toDigits_ne_nil

end Message

section Run

def indexLine (l : Listed) : List Char :=
  ['+', 'C', 'M', 'G', 'L', ':'] ++ (' ' :: (l.index ++ ',' :: l.rest))

def listing (ls : List Listed) : List (List Char) :=
  ls.flatMap fun l => [indexLine l, l.message.pdu]

def AllSplit : Bool → List Listed → Prop
  | _, [] => True
  | stale, l :: ls => Splits stale l.message ∧ AllSplit (staleAfter stale l.message) ls

theorem back_literal (l : Listed) : ∀ c ∈ l.index ++ ',' :: l.rest,
    isBlank c = false ∧ isPattern c = false ∧ c ≠ '\\' ∧ c ≠ 'O' := by
  intro c member
  have digit {c : Char} (isDigit : c.isDigit = true) :
      isBlank c = false ∧ isPattern c = false ∧ c ≠ '\\' ∧ c ≠ 'O' := by
    have plain : c.isAlphanum = true := by rw [Char.isAlphanum, isDigit, Bool.or_true]
    obtain ⟨blank, pattern, backslash, _⟩ := alphanum_other plain
    refine ⟨blank, pattern, backslash, ?_⟩
    rintro rfl
    cases isDigit
  rcases List.mem_append.mp member with inIndex | behind
  · exact digit (l.index_digits c inIndex)
  · rcases List.mem_cons.mp behind with rfl | inRest
    · decide
    · rcases l.rest_digits c inRest with isDigit | rfl
      · exact digit isDigit
      · decide

theorem indexLine_literal (l : Listed) :
    ∀ c ∈ indexLine l, isPattern c = false ∧ c ≠ '\\' ∧ c ≠ '\n' ∧ c ≠ 'O' := by
  intro c member
  rcases List.mem_append.mp member with front | behind
  · have letters : ∀ c ∈ ['+', 'C', 'M', 'G', 'L', ':'],
        isPattern c = false ∧ c ≠ '\\' ∧ c ≠ '\n' ∧ c ≠ 'O' := by simp [isPattern]
    exact letters c front
  · rcases List.mem_cons.mp behind with rfl | back
    · decide
    · obtain ⟨blank, pattern, backslash, letter⟩ := back_literal l c back
      refine ⟨pattern, backslash, ?_, letter⟩
      rintro rfl
      cases blank

theorem not_final (l : Listed) : ¬ Final (indexLine l) := by
  have letters : 'O' ∉ indexLine l := fun member => (indexLine_literal l 'O' member).2.2.2 rfl
  rintro (ok | error)
  · exact letters (ok.subset (by decide))
  · exact letters (error.subset (by decide))

variable (files : Pathnames)

theorem smsind_indexLine (l : Listed) : smsind files (indexLine l) = l.index := by
  have front : ∀ c ∈ ['+', 'C', 'M', 'G', 'L', ':'], isBlank c = false := by simp [isBlank]
  have back (c : Char) (member : c ∈ l.index ++ ',' :: l.rest) := (back_literal l c member).1
  have whole : rejoin isBlank ' ' (indexLine l) = indexLine l := by
    apply rejoin_of_spaced
    · refine (spaced_of_plain front).append ?_ ?_
      · have space : Spaced isBlank ' ' [' '] := by decide
        apply space.append (spaced_of_plain back)
        exact fun _ _ b isHead => .inr (back b (List.mem_of_mem_head? isHead))
      · exact fun a isLast _ _ => .inl (front a (List.mem_of_mem_getLast? isLast))
    · rintro c ⟨⟩
      rfl
    · intro c isLast
      have regroup : indexLine l =
          ['+', 'C', 'M', 'G', 'L', ':', ' '] ++ (l.index ++ ',' :: l.rest) := rfl
      rw [regroup, List.getLast?_append_of_ne_nil _ (by simp)] at isLast
      exact back c (List.mem_of_mem_getLast? isLast)
  have literal := indexLine_literal l
  have printed : echo (files.unquoted (indexLine l)) = indexLine l ++ ['\n'] :=
    echo_unquoted whole (fun option => absurd (Option.some.inj option) (by decide))
      (fun inside => (literal _ inside).2.1 rfl) fun w member =>
        files.expand_plain w fun c inside => (literal c (subset_of_mem_words member inside)).1
  have taken : (l.index ++ ',' :: l.rest).takeWhile Char.isDigit = l.index := by
    rw [List.takeWhile_append_of_pos l.index_digits, List.takeWhile_cons_of_neg (by decide),
      List.append_nil]
  have dropped : (l.index ++ ',' :: l.rest).dropWhile Char.isDigit = ',' :: l.rest := by
    rw [List.dropWhile_append_of_pos l.index_digits, List.dropWhile_cons_of_neg (by decide)]
  have captured : cmgl (indexLine l) = some l.index := by
    change (if (l.index ++ ',' :: l.rest).takeWhile Char.isDigit ≠ [] ∧
      ((l.index ++ ',' :: l.rest).dropWhile Char.isDigit).head? = some ',' then _ else _) = _
    rw [taken, dropped, if_pos ⟨l.index_some, rfl⟩]
  have replaced : sedCmgl (indexLine l) = l.index := by
    change (cmgl (indexLine l)).getD _ = _
    rw [captured, Option.getD_some]
  have alone : '\n' ∉ indexLine l := fun inside => (literal _ inside).2.2.1 rfl
  have digits : ∀ c ∈ l.index, c ≠ Char.ofNat 0 ∧ c ≠ '\n' := by
    intro c member
    have isDigit := l.index_digits c member
    constructor <;> (rintro rfl; cases isDigit)
  rw [smsind, printed, List.splitOn_append_cons_self_of_not_mem alone, List.splitOn_nil,
    List.map_cons, List.map_singleton, replaced]
  exact substitute_line digits

theorem smsparse_cons (l : Listed) (ls : List Listed) (v : Vars) :
    smsparse files v (listing (l :: ls)) =
      record files l.index (readPdu l.message.pdu v) ::
        smsparse files (readPdu l.message.pdu v).reset (listing ls) := by
  change smsparse files v (indexLine l :: l.message.pdu :: listing ls) = _
  rw [smsparse, if_neg (not_final l), smsind_indexLine]

/-- In an empty directory the records of a listing are those of its messages, if and only if all
are split. -/
theorem forall₂_listing (ls : List Listed) {stale : Bool} {v : Vars} (kept : Kept stale v) :
    List.Forall₂ Carries ls (smsparse .none v (listing ls)) ↔ AllSplit stale ls := by
  induction ls generalizing stale v with
  | nil => simp [listing, smsparse, AllSplit]
  | cons l ls ih =>
    rw [smsparse_cons, List.forall₂_cons, AllSplit]
    constructor
    · rintro ⟨carries, rest⟩
      have splits := splits_of_carries l kept carries
      exact ⟨splits, (ih (kept_after l.message kept splits)).mp rest⟩
    · rintro ⟨splits, rest⟩
      exact ⟨carries_of_splits .none l kept splits fun _ _ => rfl,
        (ih (kept_after l.message kept splits)).mpr rest⟩

theorem pattern_of_carries (ls : List Listed) {stale : Bool} {v : Vars} (kept : Kept stale v)
    (splits : AllSplit stale ls)
    (all : ∀ files, List.Forall₂ Carries ls (smsparse files v (listing ls))) :
    ∀ l ∈ ls, ∀ c ∈ l.message.sender.address, isPattern c = false := by
  induction ls generalizing stale v with
  | nil => exact nofun
  | cons l ls ih =>
    obtain ⟨now, later⟩ := splits
    simp only [smsparse_cons, List.forall₂_cons] at all
    refine List.forall_mem_cons.mpr ⟨fun c member => ?_,
      ih (kept_after l.message kept now) later fun files => (all files).2⟩
    have literal := literal_of_splits l kept now
    by_contra pattern
    obtain ⟨path, other⟩ := exists_expanded literal.spaced literal.option
      (fun inside => (literal.plain _ inside).1 rfl)
      (fun inside => (literal.plain _ inside).2.1 rfl)
      (address_subset_record l member) ((Bool.not_eq_false _).mp pattern)
    apply other
    rw [← carries_of_literal literal, ← record_of_splits _ l kept now]
    exact (all _).1

theorem kept_unset : Kept false .unset :=
  ⟨⟨rfl, rfl, rfl⟩, fun f member => by simp_all [Vars.unset, printed, plain_nil],
    fun _ => ⟨rfl, rfl⟩, nofun⟩

/-- In every directory that leaves the words of the records alone, messages that are split get
their records. -/
theorem smsparse_splits {ls : List Listed} {stale : Bool} {v : Vars} (kept : Kept stale v)
    (splits : AllSplit stale ls)
    (left : ∀ l ∈ ls, ∀ w ∈ words isBlank l.record, files.expand w = [w]) :
    List.Forall₂ Carries ls (smsparse files v (listing ls)) := by
  induction ls generalizing stale v with
  | nil => exact .nil
  | cons l ls ih =>
    obtain ⟨now, later⟩ := List.forall_mem_cons.mp left
    rw [smsparse_cons]
    exact .cons (carries_of_splits files l kept splits.1 now)
      (ih (kept_after l.message kept splits.1) splits.2 later)

/-- Whatever files there are, every message of a listing gets the record it should, if and only
if: international numbers have an odd number of digits, or only digits behind them that look the
same one digit later; numbers of unknown type have an even number of digits; names have characters
that are numbered alike in the alphabet of GSM, no colon, no pattern, and single blanks only; a
message without a header does not follow an international one with a header, unless a name or an
unknown number with a header is between them; and a header comes with DCS 00 or 08. -/
theorem smsparse_splits_iff (ls : List Listed) :
    (∀ files, List.Forall₂ Carries ls (smsparse files .unset (listing ls))) ↔
      AllSplit false ls ∧ ∀ l ∈ ls, ∀ c ∈ l.message.sender.address, isPattern c = false := by
  constructor
  · intro all
    have splits := (forall₂_listing ls kept_unset).mp (all .none)
    exact ⟨splits, pattern_of_carries ls kept_unset splits all⟩
  · rintro ⟨splits, literal⟩ files
    refine smsparse_splits files kept_unset splits fun l among w member => ?_
    exact files.expand_plain w fun c inside =>
      pattern_record (literal l among) c (subset_of_mem_words member inside)

def twelveDigits : Listed where
  index := ['3']
  rest := ['1', ',', ',', '2', '3']
  message :=
    { centre := [0x91, 0x83, 0x50].map octet, first := octet 0x04,
      sender := .international [3, 8, 0, 5, 0, 1, 2, 3, 4, 5, 6, 7], format := octet 0x91,
      pid := octet 0, dcs := octet 8,
      scts := [0x42, 0x10, 0x20, 0x90, 0x15, 0x33, 0x21].map octet, udl := octet 2,
      header := none, text := [0x04, 0x1F].map octet, centre_some := by decide,
      centre_size := by decide, sender_size := by decide, format_ton := by decide,
      scts_size := by decide, indicated := by decide }
  index_some := by decide
  index_digits := List.all_eq_true.mp (by decide)
  rest_digits := by simp

/-- The number comes out with a digit too many, and all that follows one digit early. -/
theorem twelveDigits_shifted :
    smsparse .none .unset (listing [twelveDigits]) =
        ["3:3805012345670:84:21020901533210::::41F\n".toList] ∧
      ¬ List.Forall₂ Carries [twelveDigits] (smsparse .none .unset (listing [twelveDigits])) := by
  have number : kind twelveDigits.message.sender ≠ .alphanum := by decide
  have text := @record_literal .none _ _ (plain_index twelveDigits)
    (tidy_of_kept kept_unset twelveDigits.message) fun c member => by
      obtain ⟨_, pattern, backslash, _⟩ := alphanum_other (plain_oaNum number .unset c member)
      exact ⟨pattern, backslash⟩
  rw [smsparse_cons, List.forall₂_cons, carries_number_iff .none _ kept_unset number]
  constructor
  · have line : [':'].intercalate (twelveDigits.index :: squeeze isBlank ' '
        (readPdu twelveDigits.message.pdu .unset).oaNum ::
          (printed (readPdu twelveDigits.message.pdu .unset)).tail) ++ ['\n'] =
        "3:3805012345670:84:21020901533210::::41F\n".toList := by
      decide +kernel
    rw [text, line]
    rfl
  · rintro ⟨⟨apart, _⟩, _⟩
    rcases apart with odd | ⟨_, none, _⟩
    · revert odd
      decide
    · cases none

end Run

end IecUtils.Sms.Listing
