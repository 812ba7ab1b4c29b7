/- Module: IecUtils/Sms/Reassembly
   source: sort and smsjoin, on the records of segments
   digest: Joined lines are whole messages, unless the segments under one reference number pass for one. -/

import IecUtils.Sms.Join
import Mathlib.Data.Char
import Mathlib.Data.List.Lex

set_option autoImplicit false
set_option relaxedAutoImplicit false

namespace IecUtils.Sms.Reassembly

open IecUtils.Foundation.Tally
open IecUtils.Foundation.Words
open IecUtils.Sms.Parse (Final)
open IecUtils.Sms.Join

section Segments

def Hexadecimal (cs : List Char) : Prop :=
  ∀ c ∈ cs, c.isDigit = true ∨ ('A' ≤ c ∧ c ≤ 'F')

instance (cs : List Char) : Decidable (Hexadecimal cs) := List.decidableBAll _ cs

structure Message where
  sender : List Char
  ref : List Char
  total : Nat
  sender_hex : Hexadecimal sender
  ref_hex : Hexadecimal ref
  ref_some : ref ≠ []

/-- One part of the message `origin`, and where it is stored. -/
structure Segment (ι : Type) where
  origin : ι
  part : Nat
  index : List Char
  dcs : List Char
  scts : List Char
  data : List Char
  index_hex : Hexadecimal index
  index_some : index ≠ []
  dcs_hex : Hexadecimal dcs
  scts_hex : Hexadecimal scts
  data_hex : Hexadecimal data

/-- The segments that are stored, each at a place of its own. -/
structure Store (ι : Type) where
  message : ι → Message
  segments : List (Segment ι)
  places : (segments.map Segment.index).Nodup

variable {ι : Type} (σ : Store ι)

def Store.ref (s : Segment ι) : List Char := (σ.message s.origin).ref

def Store.total (s : Segment ι) : Nat := (σ.message s.origin).total

def Store.fields (s : Segment ι) : List (List Char) :=
  [s.index, (σ.message s.origin).sender, s.dcs, s.scts, σ.ref s, Nat.toDigits 10 (σ.total s),
    Nat.toDigits 10 s.part, s.data]

def Store.record (s : Segment ι) : List Char := [':'].intercalate (σ.fields s)

/-- A line holds the parts of one message, from the first to the last and each once, with the
number of its sender and with their places. -/
def Store.Whole (line : List Char) : Prop :=
  ∃ (o : ι) (parts : List (Segment ι)) (dcs scts : List Char),
    (∀ p ∈ parts, p ∈ σ.segments ∧ p.origin = o) ∧
      parts.map Segment.part = List.range' 1 (σ.message o).total ∧
        line.splitOn ':' = [[' '].intercalate (parts.map Segment.index), (σ.message o).sender, dcs,
          scts, parts.flatMap Segment.data]

/-- The segments with data and the reference number of `s`. -/
def Store.sharing (s : Segment ι) : List (Segment ι) :=
  σ.segments.filter fun t => t.data ≠ [] ∧ σ.ref t = σ.ref s

/-- No segment under this reference number has a higher part number, or the same and a higher
count. -/
def Store.Closes (s : Segment ι) : Prop :=
  s ∈ σ.segments ∧ s.data ≠ [] ∧
    ∀ t ∈ σ.sharing s, t.part < s.part ∨ t.part = s.part ∧ σ.total t ≤ σ.total s

/-- Where as many segments share a reference number as the one with the highest part number
counts, they are the parts of one message. -/
def Store.Separate : Prop :=
  ∀ s, σ.Closes s → (σ.sharing s).length = σ.total s →
    (∀ t ∈ σ.sharing s, t.origin = s.origin) ∧ ((σ.sharing s).map Segment.part).Nodup ∧
      ∀ t ∈ σ.sharing s, 1 ≤ t.part ∧ t.part ≤ σ.total s

end Segments

section Records

variable {ι : Type} (σ : Store ι)

theorem hexadecimal_toDigits (n : Nat) : Hexadecimal (Nat.toDigits 10 n) :=
  fun _ member => .inl (Nat.isDigit_of_mem_toDigits (by decide) (by decide) member)

theorem fields_hex (s : Segment ι) : ∀ f ∈ σ.fields s, Hexadecimal f := by
  simp only [Store.fields, List.forall_mem_cons]
  exact ⟨s.index_hex, (σ.message s.origin).sender_hex, s.dcs_hex, s.scts_hex,
    (σ.message s.origin).ref_hex, hexadecimal_toDigits _, hexadecimal_toDigits _, s.data_hex, nofun⟩

theorem notMem_hexadecimal {c : Char} (other : ¬ (c.isDigit = true ∨ ('A' ≤ c ∧ c ≤ 'F')))
    {cs : List Char} (hex : Hexadecimal cs) : c ∉ cs := fun member => other (hex c member)

theorem record_splitOn (s : Segment ι) : (σ.record s).splitOn ':' = σ.fields s :=
  List.splitOn_intercalate ':'
    (fun f member => notMem_hexadecimal (by decide) (fields_hex σ s f member))
    (List.cons_ne_nil _ _)

theorem field_record (n : Nat) (s : Segment ι) :
    field n (σ.record s) = (σ.fields s).getD (n - 1) [] := by
  rw [field, record_splitOn]

theorem not_final (s : Segment ι) : ¬ Final (σ.record s) := by
  have letters : 'O' ∉ σ.record s := by
    intro member
    rcases mem_intercalate member with colon | ⟨f, among, inside⟩
    · cases colon
    · exact notMem_hexadecimal (by decide) (fields_hex σ s f among) inside
  rintro (ok | error)
  · exact letters (ok.subset (by decide))
  · exact letters (error.subset (by decide))

theorem key_record (s : Segment ι) :
    key (σ.record s) = if s.data = [] then none else some (σ.ref s) := by
  have data : field 8 (σ.record s) = s.data := field_record σ 8 s
  have ref : field 5 (σ.record s) = σ.ref s := field_record σ 5 s
  have some : σ.ref s ≠ [] := (σ.message s.origin).ref_some
  rw [key, data, ref]
  simp [not_final, some]

theorem numeric_toDigits (n : Nat) : numeric (Nat.toDigits 10 n) = n := by
  have digits : ∀ c ∈ Nat.toDigits 10 n, c.isDigit = true :=
    fun _ member => Nat.isDigit_of_mem_toDigits (by decide) (by decide) member
  rw [numeric, List.takeWhile_eq_self_iff.mpr digits, Nat.ofDigitChars_ten_toDigits]

theorem before_record {c : Collation} {s t : Segment ι}
    (ordered : before c (σ.record s) (σ.record t) = true) :
    s.part < t.part ∨ s.part = t.part ∧ σ.total s ≤ σ.total t := by
  have part (u : Segment ι) : numeric (field 7 (σ.record u)) = u.part :=
    (congrArg numeric (field_record σ 7 u)).trans (numeric_toDigits _)
  have total (u : Segment ι) : numeric (field 6 (σ.record u)) = σ.total u :=
    (congrArg numeric (field_record σ 6 u)).trans (numeric_toDigits _)
  rw [before, byKey_iff, byKey_iff, part, part, total, total] at ordered
  rcases ordered with less | ⟨same, less | ⟨equal, _⟩⟩
  · exact .inl less
  · exact .inr ⟨same, Nat.le_of_lt less⟩
  · exact .inr ⟨same, Nat.le_of_eq equal⟩

theorem out_records (ss : List (Segment ι)) (s : Awk) :
    ((ss.map σ.record).foldl mainRule s).out = s.out := by
  induction ss generalizing s with
  | nil => rfl
  | cons t ss ih =>
    have ref : field 5 (σ.record t) = σ.ref t := field_record σ 5 t
    have some : σ.ref t ≠ [] := (σ.message t.origin).ref_some
    rw [List.map_cons, List.foldl_cons, ih]
    unfold mainRule
    rw [if_neg (not_final σ t), ref, if_neg some]
    split <;> rfl

theorem assign_record (r : Row) (s : Segment ι) :
    r.assign (σ.record s) =
      { index := if r.index = [] then s.index else r.index ++ ' ' :: s.index
        num := (σ.message s.origin).sender
        dcs := s.dcs
        scts := s.scts
        totalPart := Nat.toDigits 10 (σ.total s)
        curPart := r.curPart + 1
        data := r.data ++ s.data } := by
  simp only [Row.assign, field_record]
  rfl

private theorem places_some {ss : List (Segment ι)} (some : ss ≠ []) :
    [' '].intercalate (ss.map Segment.index) ≠ [] := by
  obtain ⟨s, ss, rfl⟩ := List.exists_cons_of_ne_nil some
  cases ss with
  | nil => simpa using s.index_some
  | cons t ss => simp [List.intercalate_cons_cons]

theorem row_all (ss : List (Segment ι)) :
    ((ss.map σ.record).foldl Row.assign .unset).index =
        [' '].intercalate (ss.map Segment.index) ∧
      ((ss.map σ.record).foldl Row.assign .unset).curPart = ss.length ∧
        ((ss.map σ.record).foldl Row.assign .unset).data = ss.flatMap Segment.data := by
  induction ss using List.reverseRecOn with
  | nil => exact ⟨rfl, rfl, rfl⟩
  | append_singleton ss s ih =>
    obtain ⟨index, count, data⟩ := ih
    rw [List.map_append, List.foldl_append, List.map_singleton, List.foldl_cons, List.foldl_nil,
      assign_record, index, count, data]
    refine ⟨?_, by simp, by simp⟩
    dsimp only
    rw [List.map_append, List.map_singleton]
    by_cases first : ss = []
    · rw [first]
      simp
    · rw [if_neg (places_some first), intercalate_concat (by simpa using first)]

theorem row_concat (ss : List (Segment ι)) (s : Segment ι) :
    ((ss ++ [s]).map σ.record).foldl Row.assign .unset =
      { index := [' '].intercalate ((ss ++ [s]).map Segment.index)
        num := (σ.message s.origin).sender
        dcs := s.dcs
        scts := s.scts
        totalPart := Nat.toDigits 10 (σ.total s)
        curPart := (ss ++ [s]).length
        data := (ss ++ [s]).flatMap Segment.data } := by
  obtain ⟨index, count, data⟩ := row_all σ (ss ++ [s])
  have last : ((ss ++ [s]).map σ.record).foldl Row.assign .unset =
      ((ss.map σ.record).foldl Row.assign .unset).assign (σ.record s) := by
    rw [List.map_append, List.foldl_append]
    rfl
  rw [← index, ← count, ← data, last, assign_record]

theorem complete_concat (ss : List (Segment ι)) (s : Segment ι) :
    (((ss ++ [s]).map σ.record).foldl Row.assign .unset).Complete ↔
      (ss ++ [s]).length = σ.total s := by
  have digits : (Nat.toDigits 10 (σ.total s)).all Char.isDigit = true :=
    List.all_eq_true.mpr fun _ member =>
      Nat.isDigit_of_mem_toDigits (by decide) (by decide) member
  rw [row_concat, Row.Complete, if_pos ⟨Nat.toDigits_ne_nil, digits⟩, Nat.ofDigitChars_ten_toDigits]
  exact eq_comm

end Records

section Lines

variable {ι : Type} (σ : Store ι) (c : Collation)

def Store.sorted : List (Segment ι) :=
  σ.segments.mergeSort fun s t => before c (σ.record s) (σ.record t)

def Store.group (ref : List Char) : List (Segment ι) :=
  (σ.sorted c).filter fun t => t.data ≠ [] ∧ σ.ref t = ref

theorem before_trans (a b d : List Char) : before c a b = true → before c b d = true →
    before c a d = true :=
  byKey_trans (byKey_trans (byKey_trans c.trans)) a b d

theorem before_total (a b : List Char) : (before c a b || before c b a) = true :=
  byKey_total (byKey_total (byKey_total c.total)) a b

theorem sortLines_record :
    sortLines c (σ.segments.map σ.record) = (σ.sorted c).map σ.record := by
  rw [sortLines, Store.sorted, List.map_mergeSort]
  exact fun _ _ _ _ => rfl

theorem under_record (ref : List Char) :
    under key ref ((σ.sorted c).map σ.record) = (σ.group c ref).map σ.record := by
  rw [under, List.filter_map, Store.group]
  congr 2
  funext s
  by_cases data : s.data = [] <;> simp [key_record, data]

theorem group_sorted (ref : List Char) : (σ.group c ref).Pairwise fun s t =>
    s.part < t.part ∨ s.part = t.part ∧ σ.total s ≤ σ.total t := by
  have sorted : (σ.sorted c).Pairwise fun s t => before c (σ.record s) (σ.record t) = true :=
    List.pairwise_mergeSort
      (fun s t u => before_trans c (σ.record s) (σ.record t) (σ.record u))
      (fun s t => before_total c (σ.record s) (σ.record t)) σ.segments
  exact (sorted.imp fun ordered => before_record σ ordered).filter _

theorem group_perm (s : Segment ι) : (σ.group c (σ.ref s)).Perm (σ.sharing s) :=
  (List.mergeSort_perm σ.segments _).filter _

theorem mem_smsjoin (line : List Char) :
    line ∈ smsjoin (sortLines c (σ.segments.map σ.record)) ↔
      ∃ ref init last, σ.group c ref = init ++ [last] ∧ (init ++ [last]).length = σ.total last ∧
        line = [':'].intercalate [[' '].intercalate ((init ++ [last]).map Segment.index),
          (σ.message last.origin).sender, last.dcs, last.scts,
          (init ++ [last]).flatMap Segment.data] := by
  have out := out_records σ (σ.sorted c) ⟨[], []⟩
  rw [sortLines_record, smsjoin, out, List.nil_append, mem_endRule]
  simp only [under_record, ne_eq, List.map_eq_nil_iff]
  constructor
  · rintro ⟨ref, some, complete, rfl⟩
    obtain ⟨init, last, parts⟩ := (List.eq_nil_or_concat' (σ.group c ref)).resolve_left some
    rw [parts] at complete ⊢
    refine ⟨ref, init, last, parts, (complete_concat σ init last).mp complete, ?_⟩
    rw [row_concat]
    rfl
  · rintro ⟨ref, init, last, parts, complete, rfl⟩
    refine ⟨ref, by rw [parts]; simp, ?_, ?_⟩
    · rw [parts]
      exact (complete_concat σ init last).mpr complete
    · rw [parts, row_concat]
      rfl

theorem splitOn_line (ss : List (Segment ι)) (s : Segment ι) :
    ([':'].intercalate [[' '].intercalate (ss.map Segment.index), (σ.message s.origin).sender,
        s.dcs, s.scts, ss.flatMap Segment.data]).splitOn ':' =
      [[' '].intercalate (ss.map Segment.index), (σ.message s.origin).sender, s.dcs, s.scts,
        ss.flatMap Segment.data] := by
  refine List.splitOn_intercalate ':' ?_ (List.cons_ne_nil _ _)
  simp only [List.forall_mem_cons]
  refine ⟨?_, notMem_hexadecimal (by decide) (σ.message s.origin).sender_hex,
    notMem_hexadecimal (by decide) s.dcs_hex, notMem_hexadecimal (by decide) s.scts_hex, ?_, nofun⟩
  · intro member
    rcases mem_intercalate member with blank | ⟨place, among, inside⟩
    · cases blank
    · obtain ⟨t, _, rfl⟩ := List.mem_map.mp among
      exact notMem_hexadecimal (by decide) t.index_hex inside
  · intro member
    obtain ⟨t, _, inside⟩ := List.mem_flatMap.mp member
    exact notMem_hexadecimal (by decide) t.data_hex inside

private theorem eq_of_map_eq {α β : Type} {f : α → β} {l as bs : List α} (nodup : (l.map f).Nodup)
    (front : ∀ a ∈ as, a ∈ l) (back : ∀ b ∈ bs, b ∈ l) (same : as.map f = bs.map f) : as = bs := by
  induction as generalizing bs with
  | nil => exact (List.map_eq_nil_iff.mp same.symm).symm
  | cons a as ih =>
    cases bs with
    | nil => cases same
    | cons b bs =>
      obtain ⟨inFront, front⟩ := List.forall_mem_cons.mp front
      obtain ⟨inBack, back⟩ := List.forall_mem_cons.mp back
      obtain ⟨first, later⟩ := List.cons.inj same
      rw [List.inj_on_of_nodup_map nodup inFront inBack first, ih front back later]

theorem segments_of_places {ss ts : List (Segment ι)} (some : ss ≠ [])
    (front : ∀ s ∈ ss, s ∈ σ.segments) (back : ∀ t ∈ ts, t ∈ σ.segments)
    (same : [' '].intercalate (ss.map Segment.index) =
      [' '].intercalate (ts.map Segment.index)) : ss = ts := by
  have blanks (us : List (Segment ι)) : ∀ f ∈ us.map Segment.index, ' ' ∉ f := by
    intro f among
    obtain ⟨u, _, rfl⟩ := List.mem_map.mp among
    exact notMem_hexadecimal (by decide) u.index_hex
  have more : ts ≠ [] := by
    rintro rfl
    exact places_some some same
  have fields := congrArg (List.splitOn ' ') same
  rw [List.splitOn_intercalate ' ' (blanks ss) (by simpa using some),
    List.splitOn_intercalate ' ' (blanks ts) (by simpa using more)] at fields
  exact eq_of_map_eq σ.places front back fields

variable {σ c} in
theorem mem_group {s t : Segment ι} : t ∈ σ.group c (σ.ref s) ↔ t ∈ σ.sharing s :=
  (group_perm σ c s).mem_iff

theorem sharing_segments {s t : Segment ι} (member : t ∈ σ.sharing s) : t ∈ σ.segments :=
  (List.mem_filter.mp member).1

theorem closes_last {s last : Segment ι} {init : List (Segment ι)}
    (parts : σ.group c (σ.ref s) = init ++ [last]) :
    σ.ref last = σ.ref s ∧ σ.Closes last := by
  have member : last ∈ σ.sharing s := by
    rw [← mem_group, parts]
    simp
  obtain ⟨stored, isShared⟩ := List.mem_filter.mp member
  obtain ⟨data, ref⟩ : last.data ≠ [] ∧ σ.ref last = σ.ref s := by simpa using isShared
  refine ⟨ref, stored, data, ?_⟩
  intro t shared
  rw [Store.sharing, ref] at shared
  have inGroup : t ∈ σ.group c (σ.ref s) := mem_group.mpr shared
  have sorted := group_sorted σ c (σ.ref s)
  rw [parts] at inGroup sorted
  rcases List.mem_append.mp inGroup with earlier | isLast
  · exact (List.pairwise_append.mp sorted).2.2 t earlier last (List.mem_singleton.mpr rfl)
  · obtain rfl := List.mem_singleton.mp isLast
    exact .inr ⟨rfl, le_rfl⟩

theorem total_closes {s t : Segment ι} (ref : σ.ref t = σ.ref s) (first : σ.Closes s)
    (second : σ.Closes t) : σ.total t = σ.total s := by
  obtain ⟨inS, dataS, highS⟩ := first
  obtain ⟨inT, dataT, highT⟩ := second
  have below := highS t (List.mem_filter.mpr ⟨inT, by simp [dataT, ref]⟩)
  have above := highT s (List.mem_filter.mpr ⟨inS, by simp [dataS, ref]⟩)
  omega

theorem parts_of_group {s : Segment ι} {total : Nat}
    (count : (σ.group c (σ.ref s)).length = total)
    (nodup : ((σ.sharing s).map Segment.part).Nodup)
    (bounds : ∀ t ∈ σ.sharing s, 1 ≤ t.part ∧ t.part ≤ total) :
    (σ.group c (σ.ref s)).map Segment.part = List.range' 1 total := by
  have length : ((σ.group c (σ.ref s)).map Segment.part).length = total := by
    rw [List.length_map, count]
  rw [← length]
  apply eq_range'
  · refine List.Pairwise.map _ ?_ (group_sorted σ c (σ.ref s))
    intro t u ordered
    omega
  · exact ((group_perm σ c s).map Segment.part).nodup_iff.mpr nodup
  · intro n member
    obtain ⟨t, inGroup, rfl⟩ := List.mem_map.mp member
    rw [length]
    exact bounds t (mem_group.mp inGroup)

theorem whole_of_separate (separate : σ.Separate) {line : List Char}
    (member : line ∈ smsjoin (sortLines c (σ.segments.map σ.record))) : σ.Whole line := by
  obtain ⟨ref, init, last, parts, count, rfl⟩ := (mem_smsjoin σ c line).mp member
  obtain rfl : σ.ref last = ref := by
    have inGroup : last ∈ σ.group c ref := by
      rw [parts]
      simp
    have shares := (List.mem_filter.mp inGroup).2
    simp only [decide_eq_true_eq] at shares
    exact shares.2
  have length : (σ.group c (σ.ref last)).length = σ.total last := by rw [parts, count]
  obtain ⟨origins, nodup, bounds⟩ := separate last (closes_last σ c parts).2
    ((group_perm σ c last).length_eq ▸ length)
  refine ⟨last.origin, init ++ [last], last.dcs, last.scts, ?_, ?_, splitOn_line σ _ last⟩
  · intro p inside
    have shared : p ∈ σ.sharing last := mem_group.mp (parts ▸ inside)
    exact ⟨sharing_segments σ shared, origins p shared⟩
  · rw [← parts]
    exact parts_of_group σ c length nodup bounds

theorem separate_of_whole
    (whole : ∀ line ∈ smsjoin (sortLines c (σ.segments.map σ.record)), σ.Whole line) :
    σ.Separate := by
  intro s closes count
  have shared : s ∈ σ.sharing s := List.mem_filter.mpr ⟨closes.1, by simp [closes.2.1]⟩
  have inGroup : s ∈ σ.group c (σ.ref s) := mem_group.mpr shared
  obtain ⟨init, last, parts⟩ :=
    (List.eq_nil_or_concat' (σ.group c (σ.ref s))).resolve_left (List.ne_nil_of_mem inGroup)
  obtain ⟨ref, lastCloses⟩ := closes_last σ c parts
  have complete : (init ++ [last]).length = σ.total last := by
    rw [← parts, (group_perm σ c s).length_eq, count, total_closes σ ref closes lastCloses]
  obtain ⟨o, ps, dcs, scts, members, numbers, fields⟩ :=
    whole _ ((mem_smsjoin σ c _).mpr ⟨_, init, last, parts, complete, rfl⟩)
  rw [splitOn_line] at fields
  have stored : ∀ t ∈ init ++ [last], t ∈ σ.segments := by
    intro t inside
    exact sharing_segments σ (mem_group.mp (parts ▸ inside))
  have same : init ++ [last] = ps :=
    segments_of_places σ (by simp) stored (fun p inside => (members p inside).1)
      (List.cons.inj fields).1
  rw [← parts] at same
  subst same
  have origin : s.origin = o := (members s inGroup).2
  have total : (σ.message o).total = σ.total s := by rw [← origin]; rfl
  rw [total] at numbers
  refine ⟨?_, ?_, ?_⟩
  · intro t inSharing
    rw [(members t (mem_group.mpr inSharing)).2, origin]
  · rw [← ((group_perm σ c s).map Segment.part).nodup_iff, numbers]
    exact List.nodup_range'
  · intro t inSharing
    have inRange : t.part ∈ List.range' 1 (σ.total s) := by
      rw [← numbers]
      exact List.mem_map_of_mem (mem_group.mpr inSharing)
    rw [List.mem_range'_1] at inRange
    omega

/-- In any order of arrival, all joined lines are whole messages if and only if wherever as many
segments share a reference number as the one with the highest part number counts, they are of one
message, with different part numbers from 1 to that count. -/
theorem smsjoin_whole_iff (c : Collation) (σ : Store ι) :
    (∀ line ∈ smsjoin (sortLines c (σ.segments.map σ.record)), σ.Whole line) ↔ σ.Separate :=
  ⟨separate_of_whole σ c, fun separate _ member => whole_of_separate σ c separate member⟩

def codePoints : Collation where
  le a b := decide (a ≤ b)
  trans a b c first second := by
    rw [decide_eq_true_eq] at *
    exact le_trans first second
  total a b := by
    rw [Bool.or_eq_true, decide_eq_true_eq, decide_eq_true_eq]
    exact le_total a b

/-- The first part of a message, and the second part of one with the same reference number from
another sender. -/
def twoSenders : Store Bool where
  message first :=
    { sender := if first then "79161234567".toList else "79037654321".toList
      ref := ['1', 'A'], total := 2
      sender_hex := by cases first <;> decide, ref_hex := by decide, ref_some := by decide }
  segments :=
    [{ origin := true, part := 1, index := ['1'], dcs := ['0', '8'], scts := [],
       data := "0414".toList, index_hex := by decide, index_some := by decide, dcs_hex := by decide,
       scts_hex := by decide, data_hex := by decide },
     { origin := false, part := 2, index := ['2'], dcs := ['0', '8'], scts := [],
       data := "0430".toList, index_hex := by decide, index_some := by decide, dcs_hex := by decide,
       scts_hex := by decide, data_hex := by decide }]
  places := by decide

theorem twoSenders_mixed :
    ¬ ∀ line ∈ smsjoin (sortLines codePoints (twoSenders.segments.map twoSenders.record)),
      twoSenders.Whole line := by
  have sorted : sortLines codePoints (twoSenders.segments.map twoSenders.record) =
      twoSenders.segments.map twoSenders.record := by
    apply List.mergeSort_of_pairwise
    decide +kernel
  have joined : smsjoin (twoSenders.segments.map twoSenders.record) =
      ["1 2:79037654321:08::04140430".toList] := by
    decide +kernel
  rw [sorted, joined]
  intro all
  obtain ⟨o, parts, _, _, members, numbers, _⟩ := all _ (List.mem_singleton.mpr rfl)
  have origin : ∀ s ∈ twoSenders.segments, s.origin = decide (s.part = 1) := by decide
  have numbers : parts.map Segment.part = List.range' 1 2 := numbers
  have sender (n : Nat) (counted : n ∈ List.range' 1 2) : o = decide (n = 1) := by
    rw [← numbers] at counted
    obtain ⟨p, inside, rfl⟩ := List.mem_map.mp counted
    obtain ⟨stored, rfl⟩ := members p inside
    exact origin p stored
  have first := sender 1 (by decide)
  have second := sender 2 (by decide)
  rw [first] at second
  cases second

end Lines

end IecUtils.Sms.Reassembly
