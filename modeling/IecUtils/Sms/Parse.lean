/- Module: IecUtils/Sms/Parse
   source: smsparse of scripts/utils/sms_utils
   digest: The loop over a listing, with the variables that outlive a turn. -/

import IecUtils.Sms.Shell

set_option autoImplicit false
set_option relaxedAutoImplicit false

namespace IecUtils.Sms.Parse

open IecUtils.Foundation.Builtins
open IecUtils.Foundation.Words
open IecUtils.Sms.Shell

section Source

/-- The variables that `smsparse` prints. The others are set in every turn before they are used,
and TP_UDHL is never set. -/
structure Vars where
  oaNum : List Char
  dcs : List Char
  scts : List Char
  refNum : List Char
  totalPart : List Char
  serPart : List Char
  ud : List Char
  deriving DecidableEq

def Vars.unset : Vars := ⟨[], [], [], [], [], [], []⟩

/-- `case $TP_OA_TYPE`; the digits that are left are the new value of PDU. -/
def readAddress (oaType : Option NumType) (oaLength : Int) (pdu : List Char) (v : Vars) :
    Vars × List Char :=
  match oaType with
  | some .inter =>
      ({ v with oaNum := getNumber (cutTo (1 + oaLength) pdu) }, cutFrom (2 + oaLength) pdu)
  | some .alphanum =>
      if oaLength % 2 = 0 then
        ({ v with oaNum := substitute (gsmdecode (cutTo oaLength pdu)) },
          cutFrom (oaLength + 1) pdu)
      else
        ({ v with oaNum := substitute (gsmdecode (cutTo (oaLength + 1) pdu)) },
          cutFrom (oaLength + 2) pdu)
  | some .unknown =>
      ({ v with oaNum := getNumber (cutTo oaLength pdu) }, cutFrom (1 + oaLength) pdu)
  | none => (v, pdu)

/-- The case `"1"` of `case $TP_UDHI`. -/
def readHeader (oaType : Option NumType) (pdu : List Char) (v : Vars) : Vars :=
  let hl : Int := 2 * ((hextoint (cutTo 2 pdu)).getD 0 + 1)
  let udh := cutTo hl pdu
  let pdu := cutFrom (1 + hl) pdu
  let refNum :=
    if hl = 12 then cutRange 7 8 udh
    else if hl = 14 then cutRange 7 10 udh
    else v.refNum
  let totalPart := expand (hextoint (cutRange (hl - 3) (hl - 2) udh))
  let serPart := expand (hextoint (cutFrom (hl - 1) udh))
  let ud :=
    if v.dcs = ['0', '0'] then udh.map (fun c => if c.isAlphanum then '0' else c) ++ pdu
    else if v.dcs = ['0', '8'] then pdu
    else v.ud
  if oaType = some .alphanum ∨ oaType = some .unknown then
    { v with refNum := [], totalPart := [], serPart := [], ud := ud }
  else { v with refNum := refNum, totalPart := totalPart, serPart := serPart, ud := ud }

/-- From TP_PID to the end of `case $TP_UDHI`. -/
def readBody (udhi : List Bool) (oaType : Option NumType) (pdu : List Char) (v : Vars) : Vars :=
  let pdu := cutFrom 3 pdu
  let v := { v with dcs := cutTo 2 pdu }
  let pdu := cutFrom 3 pdu
  let v := { v with scts := cutTo 14 pdu }
  let pdu := cutFrom 15 pdu
  let pdu := cutFrom 3 pdu
  if udhi = [false] then { v with ud := pdu }
  else if udhi = [true] then readHeader oaType pdu v
  else v

def readPdu (pdu : List Char) (v : Vars) : Vars :=
  let scaLen : Int := (hextoint (cutTo 2 pdu)).getD 0
  let pdu := cutFrom 3 pdu
  let pdu := cutFrom 3 pdu
  let pdu := cutFrom (2 * scaLen - 1) pdu
  let udhi := cutRange 2 2 (hextobin (cutTo 2 pdu))
  let pdu := cutFrom 3 pdu
  let oaLength : Int := (hextoint (cutTo 2 pdu)).getD 0
  let pdu := cutFrom 3 pdu
  let oaType := getNumtype (cutTo 2 pdu)
  let pdu := cutFrom 3 pdu
  let (v, pdu) := readAddress oaType oaLength pdu v
  readBody udhi oaType pdu v

variable (files : Pathnames)

def record (smsind : List Char) (v : Vars) : List Char :=
  echo (files.unquoted ([':'].intercalate
    [smsind, v.oaNum, v.dcs, v.scts, v.refNum, v.totalPart, v.serPart, v.ud]))

/-- The assignments behind `echo`; TP_TOTAL_NUM and TP_SEQ_NUM are used nowhere. -/
def Vars.reset (v : Vars) : Vars :=
  { v with oaNum := [], dcs := [], scts := [], refNum := [], ud := [] }

/-- What the pattern of `sed` captures at the beginning. -/
def cmgl : List Char → Option (List Char)
  | '+' :: 'C' :: 'M' :: 'G' :: 'L' :: ':' :: ' ' :: cs =>
      if cs.takeWhile Char.isDigit ≠ [] ∧ (cs.dropWhile Char.isDigit).head? = some ',' then
        some (cs.takeWhile Char.isDigit)
      else none
  | _ => none

/-- `sed` on a line: what matches the pattern is replaced with what it captures. -/
def sedCmgl : List Char → List Char
  | [] => []
  | c :: cs => (cmgl (c :: cs)).getD (c :: sedCmgl cs)

def smsind (smsindex : List Char) : List Char :=
  substitute (['\n'].intercalate (((echo (files.unquoted smsindex)).splitOn '\n').map sedCmgl))

/-- `grep -q -e 'OK' -e 'ERROR'`. -/
def Final (line : List Char) : Prop := ['O', 'K'] <:+: line ∨ ['E', 'R', 'R', 'O', 'R'] <:+: line

instance (line : List Char) : Decidable (Final line) := inferInstanceAs (Decidable (_ ∨ _))

/-- What the turns of `smsparse` print; a `read` at the end of the input sets PDU to nothing. -/
def smsparse (v : Vars) : List (List Char) → List (List Char)
  | [] => []
  | smsindex :: lines =>
      if Final smsindex then (files.unquoted smsindex).map fun w => w ++ ['\n']
      else
        match lines with
        | [] => [record files (smsind files smsindex) (readPdu [] v)]
        | pdu :: lines =>
            record files (smsind files smsindex) (readPdu pdu v) ::
              smsparse (readPdu pdu v).reset lines

end Source

end IecUtils.Sms.Parse
