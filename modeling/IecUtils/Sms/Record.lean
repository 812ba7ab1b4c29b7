/- Module: IecUtils/Sms/Record
   source: the echo of smsparse of scripts/utils/sms_utils
   digest: Which records come through the shell, and that the variables hold letters and digits. -/

import IecUtils.Sms.Split

set_option autoImplicit false
set_option relaxedAutoImplicit false

namespace IecUtils.Sms.Record

open IecUtils.Foundation.Builtins
open IecUtils.Foundation.Hex hiding value
open IecUtils.Foundation.Words
open IecUtils.Sms.Shell
open IecUtils.Sms.Pdu
open IecUtils.Sms.Parse
open IecUtils.Sms.Split

section Record

/-- A text that comes through `echo` as one field. -/
def Sound (cs : List Char) : Prop := ':' ∉ cs ∧ Spaced isBlank ' ' cs

instance (cs : List Char) : Decidable (Sound cs) := inferInstanceAs (Decidable (_ ∧ _))

def Prints (fields : List (List Char)) (chunk : List Char) : Prop :=
  ∃ line, chunk = line ++ ['\n'] ∧ '\n' ∉ line ∧ line.splitOn ':' = fields

theorem prints_iff {fields : List (List Char)} (some : fields ≠ [])
    (one : '\n' ∉ [':'].intercalate fields) {chunk : List Char} :
    Prints fields chunk ↔
      chunk = [':'].intercalate fields ++ ['\n'] ∧ ∀ f ∈ fields, ':' ∉ f := by
  constructor
  · rintro ⟨line, rfl, _, split⟩
    obtain ⟨colons, text⟩ := (splitOn_eq_iff some).mp split
    exact ⟨by rw [text], colons⟩
  · rintro ⟨rfl, colons⟩
    exact ⟨_, rfl, one, (splitOn_eq_iff some).mpr ⟨colons, rfl⟩⟩

theorem alphanum_other {c : Char} (plain : c.isAlphanum = true) :
    isBlank c = false ∧ isPattern c = false ∧ c ≠ '\\' ∧ c ≠ ':' ∧ c ≠ '-' := by
  have other {d : Char} (special : d.isAlphanum = false) : c ≠ d := by
    rintro rfl
    rw [plain] at special
    cases special
  refine ⟨?_, ?_, other rfl, other rfl, other rfl⟩
  · simp [isBlank, other (d := ' ') rfl, other (d := '\t') rfl, other (d := '\n') rfl]
  · simp [isPattern, other (d := '*') rfl, other (d := '?') rfl, other (d := '[') rfl]

theorem blank_alphanum {c : Char} (plain : c.isAlphanum = true) : isBlank c = false :=
  (alphanum_other plain).1

theorem sound_plain {cs : List Char} (plain : Plain cs) : Sound cs :=
  ⟨fun inside => (alphanum_other (plain ':' inside)).2.2.2.1 rfl,
    spaced_of_plain fun c member => blank_alphanum (plain c member)⟩

theorem line_parts (index : List Char) (v : Vars) :
    [':'].intercalate (index :: printed v) =
      (index ++ [':']) ++ (v.oaNum ++ ':' :: [':'].intercalate (printed v).tail) := by
  simp [printed, List.intercalate_cons_cons]

private theorem intercalate_other {fs : List (List Char)} (plain : ∀ f ∈ fs, Plain f) :
    ∀ c ∈ ':' :: [':'].intercalate fs,
      isBlank c = false ∧ isPattern c = false ∧ c ≠ '\\' ∧ c ≠ '-' := by
  have colon : isBlank ':' = false ∧ isPattern ':' = false ∧ ':' ≠ '\\' ∧ ':' ≠ '-' := by decide
  refine List.forall_mem_cons.mpr ⟨colon, fun c member => ?_⟩
  rcases mem_intercalate member with rfl | ⟨f, among, inside⟩
  · exact colon
  · obtain ⟨blank, pattern, backslash, _, minus⟩ := alphanum_other (plain f among c inside)
    exact ⟨blank, pattern, backslash, minus⟩

private theorem front_other {index : List Char} (plain : Plain index) :
    ∀ c ∈ index ++ [':'], isBlank c = false ∧ isPattern c = false ∧ c ≠ '\\' ∧ c ≠ '-' := by
  intro c member
  rcases List.mem_append.mp member with inIndex | colon
  · obtain ⟨blank, pattern, backslash, _, minus⟩ := alphanum_other (plain c inIndex)
    exact ⟨blank, pattern, backslash, minus⟩
  · obtain rfl := List.mem_singleton.mp colon
    decide

variable {files : Pathnames} {index : List Char} {v : Vars}

theorem rejoin_line (plain : Plain index) (rest : ∀ f ∈ (printed v).tail, Plain f) :
    rejoin isBlank ' ' ([':'].intercalate (index :: printed v)) =
      (index ++ [':']) ++
        (squeeze isBlank ' ' v.oaNum ++ ':' :: [':'].intercalate (printed v).tail) := by
  rw [line_parts]
  exact rejoin_between (by simp) (List.cons_ne_nil _ _)
    (fun c member => (front_other plain c member).1)
    (fun c member => (intercalate_other rest c member).1) _

theorem record_unexpanded (plain : Plain index) (rest : ∀ f ∈ (printed v).tail, Plain f)
    (left : ∀ w ∈ words isBlank ([':'].intercalate (index :: printed v)), files.expand w = [w]) :
    record files index v =
      (index ++ [':']) ++ unescape ['\n'] .plain
        (squeeze isBlank ' ' v.oaNum ++ ':' :: [':'].intercalate (printed v).tail) := by
  have text := rejoin_line plain rest
  have head : (rejoin isBlank ' ' ([':'].intercalate (index :: printed v))).head? ≠ some '-' := by
    rw [text, List.head?_append_of_ne_nil _ (by simp)]
    exact fun first => (front_other plain '-' (List.mem_of_mem_head? first)).2.2.2 rfl
  change echo (files.unquoted ([':'].intercalate (index :: printed v))) = _
  rw [Pathnames.unquoted_eq left, echo_words head, text,
    unescape_append fun inside => (front_other plain '\\' inside).2.2.1 rfl]

theorem record_left (plain : Plain index) (rest : ∀ f ∈ (printed v).tail, Plain f)
    (left : ∀ w ∈ words isBlank ([':'].intercalate (index :: printed v)), files.expand w = [w])
    (literal : '\\' ∉ v.oaNum) :
    record files index v =
      [':'].intercalate (index :: squeeze isBlank ' ' v.oaNum :: (printed v).tail) ++ ['\n'] := by
  have backslash :
      '\\' ∉ squeeze isBlank ' ' v.oaNum ++ ':' :: [':'].intercalate (printed v).tail := by
    intro member
    rcases List.mem_append.mp member with inside | back
    · rcases mem_squeeze inside with blank | own
      · cases blank
      · exact literal own
    · exact (intercalate_other rest '\\' back).2.2.1 rfl
  rw [record_unexpanded plain rest left, unescape_plain backslash]
  simp [printed, List.intercalate_cons_cons]

theorem record_literal (plain : Plain index) (rest : ∀ f ∈ (printed v).tail, Plain f)
    (literal : ∀ c ∈ v.oaNum, isPattern c = false ∧ c ≠ '\\') :
    record files index v =
      [':'].intercalate (index :: squeeze isBlank ' ' v.oaNum :: (printed v).tail) ++ ['\n'] := by
  have pattern : ∀ c ∈ [':'].intercalate (index :: printed v), isPattern c = false := by
    rw [line_parts]
    intro c member
    rcases List.mem_append.mp member with front | behind
    · exact (front_other plain c front).2.1
    · rcases List.mem_append.mp behind with inside | back
      · exact (literal c inside).1
      · exact (intercalate_other rest c back).2.1
  refine record_left plain rest (fun w member => files.expand_plain w fun c inside => ?_) ?_
  · exact pattern c (subset_of_mem_words member inside)
  · exact fun inside => (literal _ inside).2 rfl

theorem prints_plain_iff (plain : Plain index) (all : ∀ f ∈ printed v, Plain f)
    {fields : List (List Char)} :
    Prints (index :: fields) (record files index v) ↔ printed v = fields := by
  have same : squeeze isBlank ' ' v.oaNum = v.oaNum :=
    squeeze_of_spaced (sound_plain (all _ List.mem_cons_self)).2
  have text : record files index v = [':'].intercalate (index :: printed v) ++ ['\n'] := by
    rw [record_literal plain (fun f member => all f (List.mem_of_mem_tail member)) fun c member => ?_,
      same]
    · rfl
    · obtain ⟨_, pattern, backslash, _⟩ := alphanum_other (all _ List.mem_cons_self c member)
      exact ⟨pattern, backslash⟩
  have fields' : ∀ f ∈ index :: printed v, Plain f := List.forall_mem_cons.mpr ⟨plain, all⟩
  have one : '\n' ∉ [':'].intercalate (index :: printed v) := by
    intro member
    rcases mem_intercalate member with colon | ⟨f, among, inside⟩
    · cases colon
    · cases fields' f among _ inside
  have split : ([':'].intercalate (index :: printed v)).splitOn ':' = index :: printed v :=
    (splitOn_eq_iff (List.cons_ne_nil _ _)).mpr
      ⟨fun f among => (sound_plain (fields' f among)).1, rfl⟩
  rw [text]
  constructor
  · rintro ⟨line, same, _, fields⟩
    rw [← List.append_cancel_right same, split] at fields
    exact (List.cons.inj fields).2
  · rintro rfl
    exact ⟨_, rfl, one, split⟩

/-- In an empty directory a record that shows an address at least as long as its own has kept it,
and made all blanks spaces. -/
theorem address_of_prints (plain : Plain index) (rest : ∀ f ∈ (printed v).tail, Plain f)
    {own : List Char} {others : List (List Char)} (long : v.oaNum.length ≤ own.length)
    (count : others.length = (printed v).tail.length)
    (prints : Prints (index :: own :: others) (record Pathnames.none index v)) :
    (printed v).tail = others ∧ Sound own ∧
      own = v.oaNum.map fun c => if isBlank c then ' ' else c := by
  obtain ⟨line, text, _, split⟩ := prints
  rw [record_unexpanded plain rest fun _ _ => rfl] at text
  have short : (squeeze isBlank ' ' v.oaNum).length ≤ v.oaNum.length := length_squeeze_le _
  have colons (f : List Char) (among : f ∈ (printed v).tail) : ':' ∉ f :=
    (sound_plain (rest f among)).1
  have some : (printed v).tail ≠ [] := List.cons_ne_nil _ _
  have backslash : '\\' ∉ ':' :: [':'].intercalate (printed v).tail := fun inside =>
    (intercalate_other rest '\\' inside).2.2.1 rfl
  rw [unescape_inert backslash (by decide)] at text
  rcases (unescape_spec (':' :: [':'].intercalate (printed v).tail ++ ['\n'])
    (squeeze isBlank ' ' v.oaNum)).1 with ⟨out, kept, shorter, whole⟩ | cut
  · -- what is printed of the address is one field
    rw [kept, ← List.append_assoc, ← List.append_assoc] at text
    have line_eq := (List.append_cancel_right text).symm
    rw [line_eq, List.append_assoc, List.append_assoc, List.singleton_append,
      List.splitOn_append_cons_self, List.splitOn_append_cons_self,
      (splitOn_eq_iff some).mpr ⟨colons, rfl⟩,
      (splitOn_eq_iff (List.cons_ne_nil _ _)).mpr
        ⟨List.forall_mem_singleton.mpr (sound_plain plain).1, List.intercalate_singleton.symm⟩,
      List.singleton_append] at split
    have one : (out.splitOn ':').length = [own].length := by
      have sizes := congrArg List.length (List.cons.inj split).2
      rw [List.length_append, List.length_cons, count] at sizes
      rw [List.length_singleton]
      omega
    obtain ⟨same, tail⟩ := List.append_inj (List.cons.inj split).2 one
    obtain ⟨noColon, own_eq⟩ := (splitOn_eq_iff (List.cons_ne_nil _ _)).mp same
    rw [List.intercalate_singleton] at own_eq
    subst own_eq
    have squeezed := whole (by omega)
    have uncut : (squeeze isBlank ' ' v.oaNum).length = v.oaNum.length := by omega
    refine ⟨tail, ⟨noColon out List.mem_cons_self, ?_⟩, ?_⟩
    · rw [squeezed]
      exact spaced_squeeze _
    · rw [squeezed, squeeze_of_length uncut]
  · -- the line has no room for the address
    have line_eq := ((splitOn_eq_iff (List.cons_ne_nil _ _)).mp split).2
    have size := congrArg List.length text
    rw [line_eq, List.intercalate_cons_cons] at size
    have room : own.length ≤ ([':'].intercalate (own :: others)).length := by
      cases others with
      | nil => exact Nat.le_of_eq (by rw [List.intercalate_singleton])
      | cons f fs =>
        rw [List.intercalate_cons_cons, List.append_assoc, List.length_append]
        exact Nat.le_add_right _ _
    simp only [List.length_append, List.length_singleton] at size
    omega

end Record

section Plain

variable {n m : Int} {as cs : List Char}

theorem plain_mono (plain : Plain cs) (part : as ⊆ cs) : Plain as :=
  fun c member => plain c (part member)

theorem plain_cutTo (plain : Plain cs) : Plain (cutTo n cs) := by
  unfold cutTo
  split
  · exact plain_mono plain (List.nil_subset _)
  · exact plain_mono plain (List.take_subset _ _)

theorem plain_cutFrom (plain : Plain cs) : Plain (cutFrom n cs) := by
  unfold cutFrom
  split
  · exact plain_mono plain (List.nil_subset _)
  · exact plain_mono plain (List.drop_subset _ _)

theorem plain_cutRange (plain : Plain cs) : Plain (cutRange m n cs) := by
  unfold cutRange
  split
  · exact plain_mono plain (List.nil_subset _)
  · exact plain_cutFrom (plain_cutTo plain)

theorem plain_expand (value : Option Nat) : Plain (expand value) := by
  cases value with
  | none => exact fun c member => absurd member List.not_mem_nil
  | some n => exact plain_toDigits n

theorem plain_nil : Plain [] := fun _ member => absurd member List.not_mem_nil

/-- The variables but the address hold letters and digits. -/
def Tidy (v : Vars) : Prop := ∀ f ∈ (printed v).tail, Plain f

theorem tidy_iff {v : Vars} :
    Tidy v ↔ Plain v.dcs ∧ Plain v.scts ∧ Plain v.refNum ∧ Plain v.totalPart ∧ Plain v.serPart ∧
      Plain v.ud := by
  simp [Tidy, printed]

theorem tidy_readHeader {type : Option NumType} {pdu : List Char} (digits : Plain pdu) {v : Vars}
    (tidy : Tidy v) : Tidy (readHeader type pdu v) := by
  obtain ⟨dcs, scts, ref, total, ser, ud⟩ := tidy_iff.mp tidy
  have zeros (hl : Int) :
      Plain ((cutTo hl pdu).map fun c => if c.isAlphanum then '0' else c) := by
    intro c member
    obtain ⟨d, inside, rfl⟩ := List.mem_map.mp member
    rw [plain_cutTo digits d inside, if_pos rfl]
    rfl
  have joined {as bs : List Char} (front : Plain as) (back : Plain bs) : Plain (as ++ bs) :=
    fun c member => (List.mem_append.mp member).elim (front c) (back c)
  unfold readHeader
  dsimp only
  split
  · refine tidy_iff.mpr ⟨dcs, scts, plain_nil, plain_nil, plain_nil, ?_⟩
    dsimp only
    split_ifs
    · exact joined (zeros _) (plain_cutFrom digits)
    · exact plain_cutFrom digits
    · exact ud
  · refine tidy_iff.mpr ⟨dcs, scts, ?_, plain_expand _, plain_expand _, ?_⟩
    · dsimp only
      split_ifs
      · exact plain_cutRange (plain_cutTo digits)
      · exact plain_cutRange (plain_cutTo digits)
      · exact ref
    · dsimp only
      split_ifs
      · exact joined (zeros _) (plain_cutFrom digits)
      · exact plain_cutFrom digits
      · exact ud

theorem tidy_readBody {udhi : List Bool} {type : Option NumType} {pdu : List Char}
    (digits : Plain pdu) {v : Vars} (tidy : Tidy v) : Tidy (readBody udhi type pdu v) := by
  obtain ⟨_, _, ref, total, ser, ud⟩ := tidy_iff.mp tidy
  have behindPid : Plain (cutFrom 3 pdu) := plain_cutFrom digits
  have behindDcs : Plain (cutFrom 3 (cutFrom 3 pdu)) := plain_cutFrom behindPid
  have dcs : Plain (cutTo 2 (cutFrom 3 pdu)) := plain_cutTo behindPid
  have scts : Plain (cutTo 14 (cutFrom 3 (cutFrom 3 pdu))) := plain_cutTo behindDcs
  have rest : Plain (cutFrom 3 (cutFrom 15 (cutFrom 3 (cutFrom 3 pdu)))) :=
    plain_cutFrom (plain_cutFrom behindDcs)
  unfold readBody
  dsimp only
  split_ifs
  · exact tidy_iff.mpr ⟨dcs, scts, ref, total, ser, rest⟩
  · exact tidy_readHeader rest (tidy_iff.mpr ⟨dcs, scts, ref, total, ser, ud⟩)
  · exact tidy_iff.mpr ⟨dcs, scts, ref, total, ser, ud⟩

theorem plain_body (m : Deliver) : Plain m.body := by
  unfold Deliver.body
  simp only [← hex_append]
  exact plain_hex _

theorem plain_digitsOf (ds : List (Fin 15)) : Plain (digitsOf ds) := by
  intro c member
  obtain ⟨d, _, rfl⟩ := List.mem_map.mp member
  have digits : ∀ d : Fin 15, (digit d.val).isAlphanum = true := by decide
  exact digits d

theorem plain_pairs (ds : List (Fin 15)) : Plain (pairs ds) := by
  have digits : ∀ d : Fin 15, (digit d.val).isAlphanum = true := by decide
  induction ds using pairs.induct with
  | case1 => exact plain_nil
  | case2 a => simp [Plain, pairs, digits]
  | case3 a b ds ih =>
    simpa [Plain, pairs, digits] using ih

theorem plain_append {as bs : List Char} (front : Plain as) (back : Plain bs) :
    Plain (as ++ bs) :=
  fun c member => (List.mem_append.mp member).elim (front c) (back c)

theorem plain_value (s : Sender) : Plain s.value := by
  cases s with
  | international ds => exact plain_pairs ds
  | unknown ds => exact plain_pairs ds
  | alphanumeric n name size fill => exact plain_hex name

theorem plain_pdu (m : Deliver) : Plain m.pdu :=
  plain_append (plain_hex _) (plain_append (plain_hex _) (plain_append (plain_hex _)
    (plain_append (plain_hex _) (plain_append (plain_hex _)
      (plain_append (plain_value _) (plain_body m))))))

theorem readAddress_tidy {type : Option NumType} {n : Int} {pdu : List Char} (digits : Plain pdu)
    {v : Vars} (tidy : Tidy v) :
    Tidy (readAddress type n pdu v).1 ∧ Plain (readAddress type n pdu v).2 := by
  unfold readAddress
  split
  · exact ⟨tidy, plain_cutFrom digits⟩
  · split
    · exact ⟨tidy, plain_cutFrom digits⟩
    · exact ⟨tidy, plain_cutFrom digits⟩
  · exact ⟨tidy, plain_cutFrom digits⟩
  · exact ⟨tidy, digits⟩

theorem tidy_readPdu {pdu : List Char} (digits : Plain pdu) {v : Vars} (tidy : Tidy v) :
    Tidy (readPdu pdu v) := by
  unfold readPdu
  dsimp only
  apply tidy_readBody
  · refine (readAddress_tidy ?_ tidy).2
    repeat apply plain_cutFrom
    exact digits
  · refine (readAddress_tidy ?_ tidy).1
    repeat apply plain_cutFrom
    exact digits

theorem swapPairs_subset (cs : List Char) : swapPairs cs ⊆ cs := by
  induction cs using swapPairs.induct with
  | case1 a b cs ih =>
    intro c member
    rw [swapPairs, List.mem_cons, List.mem_cons] at member
    rcases member with rfl | rfl | inside
    · simp
    · simp
    · exact List.mem_cons_of_mem _ (List.mem_cons_of_mem _ (ih inside))
  | case2 cs single =>
    rw [swapPairs]
    · exact List.Subset.refl cs
    · exact single

theorem plain_readAddress {type : NumType} (number : type ≠ .alphanum) {n : Int}
    {pdu : List Char} (digits : Plain pdu) (v : Vars) :
    Plain (readAddress (some type) n pdu v).1.oaNum := by
  have taken (cs : List Char) : getNumber cs ⊆ cs := by
    unfold getNumber
    dsimp only
    split
    · exact List.Subset.trans (List.dropLast_subset _) (swapPairs_subset cs)
    · exact swapPairs_subset cs
  cases type with
  | inter => exact plain_mono (plain_cutTo digits) (taken _)
  | unknown => exact plain_mono (plain_cutTo digits) (taken _)
  | alphanum => exact absurd rfl number

theorem readBody_oaNum (udhi : List Bool) (type : Option NumType) (pdu : List Char) (v : Vars) :
    (readBody udhi type pdu v).oaNum = v.oaNum := by
  unfold readBody readHeader
  dsimp only
  split_ifs <;> rfl

theorem plain_oaNum {m : Deliver} (number : kind m.sender ≠ .alphanum) (v : Vars) :
    Plain (readPdu m.pdu v).oaNum := by
  rw [readPdu_pdu]
  dsimp only
  rw [readBody_oaNum]
  exact plain_readAddress number (plain_append (plain_value _) (plain_body m)) v

end Plain

end IecUtils.Sms.Record
