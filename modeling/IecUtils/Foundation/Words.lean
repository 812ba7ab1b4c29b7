/- Module: IecUtils/Foundation/Words
   source: none (texts as words between blanks, and as fields between separators)
   digest: Which texts come back when their words are written out again; fields hold no separator. -/

import Mathlib.Data.List.Chain

set_option autoImplicit false
set_option relaxedAutoImplicit false

namespace IecUtils.Foundation.Words

universe u

variable {α : Type u} (blank : α → Bool) (sp : α)

section Words

def wordsFrom : List α → List α → List (List α)
  | w, [] => if w.isEmpty then [] else [w]
  | w, c :: cs =>
      if blank c then
        if w.isEmpty then wordsFrom [] cs else w :: wordsFrom [] cs
      else wordsFrom (w ++ [c]) cs

def words (cs : List α) : List (List α) := wordsFrom blank [] cs

def rejoin (cs : List α) : List α := [sp].intercalate (words blank cs)

def squeeze : List α → List α
  | [] => []
  | c :: cs =>
      if blank c then
        if cs.head?.any blank then squeeze cs else sp :: squeeze cs
      else c :: squeeze cs

/-- All blanks are the separator, and no two stand side by side. -/
structure Spaced (cs : List α) : Prop where
  same : ∀ c ∈ cs, blank c = true → c = sp
  apart : cs.IsChain fun a b => blank a = false ∨ blank b = false

instance [DecidableEq α] (cs : List α) : Decidable (Spaced blank sp cs) :=
  decidable_of_iff ((∀ c ∈ cs, blank c = true → c = sp) ∧
      cs.IsChain fun a b => blank a = false ∨ blank b = false)
    ⟨fun h => ⟨h.1, h.2⟩, fun h => ⟨h.same, h.apart⟩⟩

variable {blank sp}

theorem Spaced.within {as cs : List α} (spaced : Spaced blank sp cs) (part : as <:+: cs) :
    Spaced blank sp as :=
  ⟨fun c member => spaced.same c (part.subset member), List.IsChain.infix spaced.apart part⟩

theorem spaced_of_plain {cs : List α} (plain : ∀ c ∈ cs, blank c = false) :
    Spaced blank sp cs := by
  constructor
  · intro c member isBlank
    rw [plain c member] at isBlank
    cases isBlank
  · apply List.Pairwise.isChain
    exact List.pairwise_of_forall_mem_list fun a member _ _ => .inl (plain a member)

theorem Spaced.append {as bs : List α} (front : Spaced blank sp as) (back : Spaced blank sp bs)
    (meet : ∀ a ∈ as.getLast?, ∀ b ∈ bs.head?, blank a = false ∨ blank b = false) :
    Spaced blank sp (as ++ bs) := by
  constructor
  · intro c member
    rcases List.mem_append.mp member with inFront | inBack
    · exact front.same c inFront
    · exact back.same c inBack
  · exact List.isChain_append.mpr ⟨front.apart, back.apart, meet⟩

theorem length_squeeze_le (cs : List α) : (squeeze blank sp cs).length ≤ cs.length := by
  induction cs with
  | nil => exact Nat.le_refl 0
  | cons c cs ih =>
    rw [squeeze]
    split
    · split
      · exact Nat.le_succ_of_le ih
      · exact Nat.succ_le_succ ih
    · exact Nat.succ_le_succ ih

theorem squeeze_of_length {cs : List α} (whole : (squeeze blank sp cs).length = cs.length) :
    squeeze blank sp cs = cs.map fun c => if blank c then sp else c := by
  induction cs with
  | nil => rfl
  | cons c cs ih =>
    have bound : (squeeze blank sp cs).length ≤ cs.length := length_squeeze_le cs
    rw [squeeze] at whole ⊢
    rw [List.map_cons]
    split at whole
    · rename_i isBlank
      rw [if_pos isBlank, if_pos isBlank]
      split at whole
      · rw [List.length_cons] at whole
        omega
      · rename_i single
        rw [if_neg single, ih (Nat.succ.inj whole)]
    · rename_i visible
      rw [if_neg visible, if_neg visible, ih (Nat.succ.inj whole)]

theorem head?_squeeze (cs : List α) :
    (squeeze blank sp cs).head? = cs.head?.map fun c => if blank c then sp else c := by
  induction cs with
  | nil => rfl
  | cons c cs ih =>
    rw [squeeze, List.head?_cons, Option.map_some]
    split
    · rename_i isBlank
      split
      · rename_i double
        cases cs with
        | nil => cases double
        | cons d cs =>
          have also : blank d = true := double
          rw [ih, List.head?_cons, Option.map_some, if_pos also]
      · rfl
    · rfl

theorem spaced_squeeze (cs : List α) : Spaced blank sp (squeeze blank sp cs) := by
  induction cs with
  | nil => exact spaced_of_plain nofun
  | cons c cs ih =>
    have head : (squeeze blank sp cs).head? = cs.head?.map fun c => if blank c then sp else c :=
      head?_squeeze cs
    rw [squeeze]
    split
    · split
      · exact ih
      · rename_i single
        refine ⟨List.forall_mem_cons.mpr ⟨fun _ => rfl, ih.same⟩, ?_⟩
        refine List.isChain_cons.mpr ⟨fun d isHead => .inr ?_, ih.apart⟩
        rw [head] at isHead
        cases cs with
        | nil => cases isHead
        | cons e cs =>
          have visible : blank e = false := by simpa using single
          obtain rfl : e = d := by simpa [visible] using isHead
          exact visible
    · rename_i visible
      have plain : blank c = false := (Bool.not_eq_true _).mp visible
      refine ⟨List.forall_mem_cons.mpr ⟨fun isBlank => absurd isBlank visible, ih.same⟩, ?_⟩
      exact List.isChain_cons.mpr ⟨fun _ _ => .inl plain, ih.apart⟩

theorem squeeze_of_spaced {cs : List α} (spaced : Spaced blank sp cs) :
    squeeze blank sp cs = cs := by
  induction cs with
  | nil => rfl
  | cons c cs ih =>
    have rest := ih (spaced.within (List.suffix_cons c cs).isInfix)
    rw [squeeze, rest]
    split
    · rename_i isBlank
      rw [if_neg, spaced.same c List.mem_cons_self isBlank]
      intro double
      cases cs with
      | nil => cases double
      | cons d cs =>
        have also : blank d = true := double
        rcases (List.isChain_cons.mp spaced.apart).1 d rfl with visible | visible
        · rw [isBlank] at visible
          cases visible
        · rw [also] at visible
          cases visible
    · rfl

theorem mem_squeeze {c : α} {cs : List α} (member : c ∈ squeeze blank sp cs) : c = sp ∨ c ∈ cs := by
  induction cs with
  | nil => cases member
  | cons d cs ih =>
    have later (inside : c ∈ squeeze blank sp cs) : c = sp ∨ c ∈ d :: cs :=
      (ih inside).imp_right (List.mem_cons_of_mem _)
    rw [squeeze] at member
    split at member
    · split at member
      · exact later member
      · exact (List.mem_cons.mp member).elim .inl later
    · rcases List.mem_cons.mp member with rfl | inside
      · exact .inr List.mem_cons_self
      · exact later inside

theorem squeeze_append {cs back : List α} (some : back ≠ [])
    (visible : ∀ c ∈ back, blank c = false) :
    squeeze blank sp (cs ++ back) = squeeze blank sp cs ++ back := by
  induction cs with
  | nil => exact squeeze_of_spaced (spaced_of_plain visible)
  | cons c cs ih =>
    rw [List.cons_append, squeeze, squeeze, ih]
    cases cs with
    | nil =>
      obtain ⟨b, back, rfl⟩ := List.exists_cons_of_ne_nil some
      have single : ¬ (([] ++ b :: back).head?.any blank = true) := by
        simp [visible b List.mem_cons_self]
      rw [if_neg single]
      split <;> rfl
    | cons d cs =>
      rw [List.cons_append, List.head?_cons, List.head?_cons]
      by_cases isBlank : blank c = true
      · by_cases double : (Option.some d).any blank = true
        · simp only [isBlank, double, if_true]
        · simp only [isBlank, if_neg double, if_true, List.cons_append]
      · simp only [if_neg isBlank, List.cons_append]

theorem wordsFrom_plain {w : List α} (plain : ∀ c ∈ w, blank c = false) (cs : List α) :
    ∀ v ∈ wordsFrom blank w cs, v ≠ [] ∧ ∀ c ∈ v, blank c = false := by
  induction cs generalizing w with
  | nil =>
    intro v member
    rw [wordsFrom] at member
    split at member
    · cases member
    · rename_i some
      obtain rfl := List.mem_singleton.mp member
      exact ⟨by simpa using some, plain⟩
  | cons c cs ih =>
    intro v member
    rw [wordsFrom] at member
    split at member
    · split at member
      · exact ih (w := []) nofun v member
      · rename_i some
        rcases List.mem_cons.mp member with rfl | later
        · exact ⟨by simpa using some, plain⟩
        · exact ih (w := []) nofun v later
    · rename_i visible
      refine ih ?_ v member
      intro d inside
      rcases List.mem_append.mp inside with old | new
      · exact plain d old
      · obtain rfl := List.mem_singleton.mp new
        exact (Bool.not_eq_true _).mp visible

private theorem subset_of_mem_wordsFrom {w : List α} (cs : List α) :
    ∀ v ∈ wordsFrom blank w cs, v ⊆ w ++ cs := by
  induction cs generalizing w with
  | nil =>
    intro v member
    rw [wordsFrom] at member
    split at member
    · cases member
    · rw [List.mem_singleton.mp member, List.append_nil]
      exact List.Subset.refl w
  | cons c cs ih =>
    intro v member
    have later (inside : v ⊆ [] ++ cs) : v ⊆ w ++ c :: cs :=
      fun _ found => List.mem_append_right _ (List.mem_cons_of_mem _ (inside found))
    rw [wordsFrom] at member
    split at member
    · split at member
      · exact later (ih v member)
      · rcases List.mem_cons.mp member with rfl | behind
        · exact List.subset_append_left _ _
        · exact later (ih v behind)
    · have inside := ih v member
      rwa [List.append_assoc] at inside

theorem subset_of_mem_words {w cs : List α} (member : w ∈ words blank cs) : w ⊆ cs :=
  subset_of_mem_wordsFrom cs w member

private theorem spaced_intercalate {ws : List (List α)}
    (plain : ∀ w ∈ ws, w ≠ [] ∧ ∀ c ∈ w, blank c = false) :
    Spaced blank sp ([sp].intercalate ws) ∧
      ∀ c ∈ ([sp].intercalate ws).head?, blank c = false := by
  induction ws with
  | nil => exact ⟨spaced_of_plain nofun, nofun⟩
  | cons w ws ih =>
    obtain ⟨⟨some, visible⟩, later⟩ := List.forall_mem_cons.mp plain
    obtain ⟨spaced, first⟩ := ih later
    have head (rest : List α) : ∀ c ∈ (w ++ rest).head?, blank c = false := by
      intro c isHead
      rw [List.head?_append_of_ne_nil _ some] at isHead
      exact visible c (List.mem_of_mem_head? isHead)
    cases ws with
    | nil =>
      rw [List.intercalate_singleton]
      exact ⟨spaced_of_plain visible, by simpa using head []⟩
    | cons w' ws =>
      rw [List.intercalate_cons_cons, List.append_assoc]
      refine ⟨(spaced_of_plain visible).append ?_ ?_, head _⟩
      · refine Spaced.append ?_ spaced ?_
        · exact ⟨fun c member _ => List.mem_singleton.mp member, List.isChain_singleton _⟩
        · exact fun _ _ b isHead => .inr (first b isHead)
      · exact fun a isLast _ _ => .inl (visible a (List.mem_of_mem_getLast? isLast))

theorem wordsFrom_append {w v : List α} (visible : ∀ c ∈ v, blank c = false) (cs : List α) :
    wordsFrom blank w (v ++ cs) = wordsFrom blank (w ++ v) cs := by
  induction v generalizing w with
  | nil => rw [List.nil_append, List.append_nil]
  | cons c v ih =>
    obtain ⟨now, later⟩ := List.forall_mem_cons.mp visible
    rw [List.cons_append, wordsFrom, now, if_neg Bool.false_ne_true, ih later, List.append_assoc,
      List.singleton_append]

/-- What is written out again behind the beginning of a word, and behind a blank, if the text ends
in something else. -/
private theorem intercalate_wordsFrom {cs : List α} (last : ∀ c ∈ cs.getLast?, blank c = false) :
    (∀ w, w ≠ [] → [sp].intercalate (wordsFrom blank w cs) = w ++ squeeze blank sp cs) ∧
      (cs ≠ [] → wordsFrom blank [] cs ≠ [] ∧ ∀ c, blank c = true →
        sp :: [sp].intercalate (wordsFrom blank [] cs) = squeeze blank sp (c :: cs)) := by
  induction cs with
  | nil =>
    refine ⟨fun w some => ?_, fun more => absurd rfl more⟩
    simp [wordsFrom, squeeze, some]
  | cons d cs ih =>
    have rest : ∀ c ∈ cs.getLast?, blank c = false := by
      intro c isLast
      exact last c (by rw [List.getLast?_cons, isLast]; rfl)
    obtain ⟨inside, behind⟩ := ih rest
    cases isBlank : blank d with
    | false =>
      constructor
      · intro w some
        rw [wordsFrom, isBlank, if_neg Bool.false_ne_true, inside _ (by simp), squeeze, isBlank,
          if_neg Bool.false_ne_true]
        simp
      · intro _
        have next := inside [d] (List.cons_ne_nil _ _)
        have first : wordsFrom blank [] (d :: cs) = wordsFrom blank [d] cs := by
          rw [wordsFrom, isBlank, if_neg Bool.false_ne_true, List.nil_append]
        rw [first]
        refine ⟨?_, fun c blank_c => ?_⟩
        · intro none
          rw [none] at next
          cases next
        · rw [next, squeeze, blank_c, if_pos rfl]
          simp [squeeze, isBlank]
    | true =>
      have more : cs ≠ [] := by
        rintro rfl
        have visible := last d rfl
        rw [isBlank] at visible
        cases visible
      obtain ⟨some', next⟩ := behind more
      constructor
      · intro w some
        have filled : w.isEmpty = false := List.isEmpty_eq_false_iff.mpr some
        rw [wordsFrom, isBlank, if_pos rfl, filled, if_neg Bool.false_ne_true,
          List.intercalate_cons_of_ne_nil some', ← next d isBlank]
        simp
      · intro _
        have first : wordsFrom blank [] (d :: cs) = wordsFrom blank [] cs := by
          rw [wordsFrom, isBlank, if_pos rfl, List.isEmpty_nil, if_pos rfl]
        rw [first]
        refine ⟨some', fun c blank_c => ?_⟩
        rw [next d isBlank]
        conv_rhs => rw [squeeze, blank_c, if_pos rfl]
        simp [isBlank]

theorem rejoin_between {front back : List α} (some : front ≠ []) (some' : back ≠ [])
    (visible : ∀ c ∈ front, blank c = false) (visible' : ∀ c ∈ back, blank c = false)
    (cs : List α) :
    rejoin blank sp (front ++ (cs ++ back)) = front ++ (squeeze blank sp cs ++ back) := by
  have last : ∀ c ∈ (cs ++ back).getLast?, blank c = false := by
    intro c isLast
    rw [List.getLast?_append_of_ne_nil _ some'] at isLast
    exact visible' c (List.mem_of_mem_getLast? isLast)
  rw [rejoin, words, wordsFrom_append visible, List.nil_append,
    (intercalate_wordsFrom last).1 front some, squeeze_append some' visible']

theorem rejoin_of_spaced {cs : List α} (spaced : Spaced blank sp cs)
    (first : ∀ c ∈ cs.head?, blank c = false) (last : ∀ c ∈ cs.getLast?, blank c = false) :
    rejoin blank sp cs = cs := by
  cases cs with
  | nil => rfl
  | cons c cs =>
    have visible := first c rfl
    have rest : ∀ c ∈ cs.getLast?, blank c = false := by
      intro d isLast
      exact last d (by rw [List.getLast?_cons, isLast]; rfl)
    have back := spaced.within (List.suffix_cons c cs).isInfix
    rw [rejoin, words, wordsFrom, visible, if_neg Bool.false_ne_true, List.nil_append,
      (intercalate_wordsFrom rest).1 [c] (List.cons_ne_nil _ _), squeeze_of_spaced back]
    rfl

theorem words_intercalate {ws : List (List α)} (isBlank : blank sp = true)
    (plain : ∀ w ∈ ws, w ≠ [] ∧ ∀ c ∈ w, blank c = false) :
    words blank ([sp].intercalate ws) = ws := by
  induction ws with
  | nil => rfl
  | cons w ws ih =>
    obtain ⟨⟨some, visible⟩, later⟩ := List.forall_mem_cons.mp plain
    have filled : w.isEmpty = false := List.isEmpty_eq_false_iff.mpr some
    cases ws with
    | nil =>
      have alone := wordsFrom_append (w := []) visible []
      rw [List.append_nil, List.nil_append] at alone
      rw [List.intercalate_singleton, words, alone, wordsFrom, filled, if_neg Bool.false_ne_true]
    | cons w' ws =>
      rw [List.intercalate_cons_cons, List.append_assoc, List.singleton_append, words,
        wordsFrom_append visible, List.nil_append, wordsFrom, isBlank, if_pos rfl, filled,
        if_neg Bool.false_ne_true]
      exact congrArg _ (ih later)

theorem wordsFrom_blank {c : α} (isBlank : blank c = true) (w as bs : List α) :
    wordsFrom blank w (as ++ c :: bs) = wordsFrom blank w as ++ words blank bs := by
  induction as generalizing w with
  | nil =>
    cases w with
    | nil => simp [wordsFrom, words, isBlank]
    | cons a w => simp [wordsFrom, words, isBlank]
  | cons a as ih =>
    rw [List.cons_append, wordsFrom, wordsFrom]
    split
    · split
      · exact ih []
      · rw [ih, List.cons_append]
    · exact ih _

end Words

section Fields

theorem mem_intercalate {sep c : α} {fs : List (List α)} (member : c ∈ [sep].intercalate fs) :
    c = sep ∨ ∃ f ∈ fs, c ∈ f := by
  induction fs with
  | nil => cases member
  | cons f fs ih =>
    cases fs with
    | nil =>
      rw [List.intercalate_singleton] at member
      exact .inr ⟨f, List.mem_cons_self, member⟩
    | cons f' fs =>
      rw [List.intercalate_cons_cons, List.append_assoc] at member
      rcases List.mem_append.mp member with inside | behind
      · exact .inr ⟨f, List.mem_cons_self, inside⟩
      · rcases List.mem_append.mp behind with isSep | rest
        · exact .inl (List.mem_singleton.mp isSep)
        · rcases ih rest with isSep | ⟨g, among, inside⟩
          · exact .inl isSep
          · exact .inr ⟨g, List.mem_cons_of_mem _ among, inside⟩

theorem subset_intercalate {sep : α} {f : List α} {fs : List (List α)} (member : f ∈ fs) :
    f ⊆ [sep].intercalate fs := by
  induction fs with
  | nil => cases member
  | cons g fs ih =>
    cases fs with
    | nil =>
      rw [List.intercalate_singleton, List.mem_singleton.mp member]
      exact List.Subset.refl g
    | cons g' fs =>
      rw [List.intercalate_cons_cons, List.append_assoc]
      rcases List.mem_cons.mp member with rfl | later
      · exact List.subset_append_left _ _
      · exact fun c inside => List.mem_append_right _ (List.mem_append_right _ (ih later inside))

theorem head?_intercalate {sep : α} {f : List α} (some : f ≠ []) (fs : List (List α)) :
    ([sep].intercalate (f :: fs)).head? = f.head? := by
  cases fs with
  | nil => rw [List.intercalate_singleton]
  | cons g fs =>
    rw [List.intercalate_cons_cons, List.append_assoc, List.head?_append_of_ne_nil _ some]

theorem intercalate_concat {sep : α} {fs : List (List α)} (some : fs ≠ []) (f : List α) :
    [sep].intercalate (fs ++ [f]) = [sep].intercalate fs ++ sep :: f := by
  induction fs with
  | nil => exact absurd rfl some
  | cons g fs ih =>
    cases fs with
    | nil => simp [List.intercalate_cons_cons]
    | cons g' fs =>
      have later := ih (List.cons_ne_nil _ _)
      simp only [List.cons_append, List.intercalate_cons_cons, List.append_assoc] at later ⊢
      rw [later]

variable [DecidableEq α] {sep : α}

theorem notMem_of_mem_splitOn {cs f : List α} (member : f ∈ cs.splitOn sep) : sep ∉ f := by
  induction cs generalizing f with
  | nil =>
    obtain rfl : f = [] := by simpa using member
    exact List.not_mem_nil
  | cons c cs ih =>
    rw [List.splitOn_cons_eq_if_modifyHead] at member
    split at member
    · rcases List.mem_cons.mp member with rfl | later
      · exact List.not_mem_nil
      · exact ih later
    · rename_i other
      obtain ⟨g, gs, parts⟩ := List.exists_cons_of_ne_nil (List.splitOn_ne_nil sep cs)
      rw [parts, List.modifyHead_cons] at member
      rw [parts] at ih
      rcases List.mem_cons.mp member with rfl | later
      · intro inside
        rcases List.mem_cons.mp inside with rfl | deeper
        · exact other (by simp)
        · exact ih List.mem_cons_self deeper
      · exact ih (List.mem_cons_of_mem _ later)

/-- The fields of a text are those given, if and only if these hold no separator and make the
text. -/
theorem splitOn_eq_iff {cs : List α} {fs : List (List α)} (some : fs ≠ []) :
    cs.splitOn sep = fs ↔ (∀ f ∈ fs, sep ∉ f) ∧ cs = [sep].intercalate fs := by
  constructor
  · rintro rfl
    exact ⟨fun f => notMem_of_mem_splitOn, (List.intercalate_splitOn sep).symm⟩
  · rintro ⟨plain, rfl⟩
    exact List.splitOn_intercalate sep plain some

end Fields

end IecUtils.Foundation.Words
