/- Module: IecUtils/Sms/Pdu
   source: none (the messages that smsparse of scripts/utils/sms_utils takes apart)
   digest: A short message as the centre delivers it, its digits, and what it has to say of itself. -/

import IecUtils.Foundation.Hex
import IecUtils.Foundation.Septets

set_option autoImplicit false
set_option relaxedAutoImplicit false

namespace IecUtils.Sms.Pdu

open IecUtils.Foundation.Hex
open IecUtils.Foundation.Septets

section Message

abbrev Octet := Fin 256

def octet (n : Nat) : Octet := Fin.ofNat 256 n

def hex (os : List Octet) : List Char := os.flatMap fun o => digits 2 o.val

/-- The default alphabet of GSM. In place of 27, behind which a septet is one of the extension, a
receiver without that shows a blank. -/
def alphabet (s : Nat) : Char :=
  if s < 32 then
    ['@', '£', '$', '¥', 'è', 'é', 'ù', 'ì', 'ò', 'Ç', '\n', 'Ø', 'ø', '\r', 'Å', 'å', 'Δ', '_',
      'Φ', 'Γ', 'Λ', 'Ω', 'Π', 'Ψ', 'Σ', 'Θ', 'Ξ', ' ', 'Æ', 'æ', 'ß', 'É'].getD s ' '
  else if s = 36 then '¤'
  else if s = 64 then '¡'
  else if 91 ≤ s ∧ s ≤ 96 then ['Ä', 'Ö', 'Ñ', 'Ü', '§', '¿'].getD (s - 91) ' '
  else if 123 ≤ s then ['ä', 'ö', 'ñ', 'ü', 'à'].getD (s - 123) ' '
  else Char.ofNat s

/-- An originating address: a number of semi-octets, of which 15 fills up the last octet, or the
octets of a name of `n` semi-octets, filled up with zeros. -/
inductive Sender where
  | international (number : List (Fin 15))
  | unknown (number : List (Fin 15))
  | alphanumeric (n : Nat) (name : List Octet) (size : 2 * name.length = n + n % 2)
      (fill : ∀ s ∈ (septets (name.map Fin.val)).drop (4 * n / 7), s = 0)

def Sender.semiOctets : Sender → Nat
  | .international number => number.length
  | .unknown number => number.length
  | .alphanumeric n _ _ _ => n

def Sender.ton : Sender → Nat
  | .international _ => 1
  | .unknown _ => 0
  | .alphanumeric _ _ _ _ => 5

def pairs : List (Fin 15) → List Char
  | [] => []
  | [a] => ['F', digit a.val]
  | a :: b :: number => digit b.val :: digit a.val :: pairs number

def Sender.value : Sender → List Char
  | .international number => pairs number
  | .unknown number => pairs number
  | .alphanumeric _ name _ _ => hex name

def Sender.letters : Sender → List Nat
  | .alphanumeric n name _ _ => (septets (name.map Fin.val)).take (4 * n / 7)
  | _ => []

def Sender.address : Sender → List Char
  | .international number => number.map fun d => digit d.val
  | .unknown number => number.map fun d => digit d.val
  | .alphanumeric n name size fill => (Sender.alphanumeric n name size fill).letters.map alphabet

/-- Headers of concatenated messages, with a reference number of eight or of sixteen bits. -/
inductive Header where
  | short (ref total part : Octet)
  | long (high low total part : Octet)

def Header.octets : Header → List Octet
  | .short ref total part => [5, 0, 3, ref, total, part]
  | .long high low total part => [6, 8, 4, high, low, total, part]

def Header.ref : Header → List Char
  | .short ref _ _ => hex [ref]
  | .long high low _ _ => hex [high, low]

def Header.total : Header → Octet
  | .short _ total _ => total
  | .long _ _ total _ => total

def Header.part : Header → Octet
  | .short _ _ part => part
  | .long _ _ _ part => part

/-- A message behind the address of its service centre. -/
structure Deliver where
  centre : List Octet
  first : Octet
  sender : Sender
  format : Octet
  pid : Octet
  dcs : Octet
  scts : List Octet
  udl : Octet
  header : Option Header
  text : List Octet
  centre_some : centre ≠ []
  centre_size : centre.length < 256
  sender_size : sender.semiOctets < 256
  format_ton : format.val / 16 % 8 = sender.ton
  scts_size : scts.length = 7
  indicated : first.val / 64 % 2 = if header.isSome then 1 else 0

variable (m : Deliver)

def Deliver.headerOctets : List Octet := m.header.elim [] Header.octets

def Deliver.body : List Char :=
  hex [m.pid] ++ (hex [m.dcs] ++ (hex m.scts ++ (hex [m.udl] ++
    (hex m.headerOctets ++ hex m.text))))

def Deliver.pdu : List Char :=
  hex [⟨m.centre.length, m.centre_size⟩] ++ (hex m.centre ++ (hex [m.first] ++
    (hex [⟨m.sender.semiOctets, m.sender_size⟩] ++ (hex [m.format] ++ (m.sender.value ++ m.body)))))

def Deliver.segment : Option Header :=
  match m.sender with
  | .international _ => m.header
  | _ => none

/-- User data with a header of zeros for DCS 00, and without the header for DCS 08. -/
def Deliver.userData : List Char :=
  if m.dcs = 0 then List.replicate (2 * m.headerOctets.length) '0' ++ hex m.text
  else if m.dcs = 8 then hex m.text
  else hex m.headerOctets ++ hex m.text

/-- The data coding schemes whose user data is taken from behind a header. -/
def Deliver.Coded : Prop := m.dcs = 0 ∨ m.dcs = 8

def Deliver.fields : List (List Char) :=
  [m.sender.address, hex [m.dcs], hex m.scts, m.segment.elim [] Header.ref,
    m.segment.elim [] fun h => Nat.toDigits 10 h.total.val,
    m.segment.elim [] fun h => Nat.toDigits 10 h.part.val, m.userData]

end Message

section Digits

@[simp] theorem length_hex (os : List Octet) : (hex os).length = 2 * os.length := by
  induction os with
  | nil => rfl
  | cons o os ih =>
    rw [hex, List.flatMap_cons, List.length_append, length_digits]
    change 2 + (hex os).length = _
    rw [ih, List.length_cons]
    omega

theorem hex_append (as bs : List Octet) : hex (as ++ bs) = hex as ++ hex bs :=
  List.flatMap_append

theorem hex_val (os : List Octet) : hex os = (os.map Fin.val).flatMap (digits 2) := by
  rw [hex, List.flatMap_map]

theorem number_hex (o : Octet) : number (hex [o]) = o.val := by
  rw [hex, List.flatMap_singleton, number_digits_of_lt o.isLt]

theorem length_pairs (ds : List (Fin 15)) : (pairs ds).length = ds.length + ds.length % 2 := by
  induction ds using pairs.induct with
  | case1 => rfl
  | case2 a => rfl
  | case3 a b ds ih =>
    simp only [pairs, List.length_cons, ih]
    omega

theorem length_value (s : Sender) : s.value.length = s.semiOctets + s.semiOctets % 2 := by
  cases s with
  | international ds => exact length_pairs ds
  | unknown ds => exact length_pairs ds
  | alphanumeric n name size _ =>
    rw [Sender.value, length_hex, size]
    rfl

end Digits

end IecUtils.Sms.Pdu
