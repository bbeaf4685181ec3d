import Xml.Entity.Declarations
import Xml.Proofs.Text.Readers

/-!
# Internal subsets

The internal subset of a document type is raw text. Its end is looked for with the literals,
comments and instructions in it passed whole, so it does not depend on what follows the `]`
(`splitSubset?_eq_some_iff`): a subset that was read can be written down in front of anything. What is
wrong with its declarations does not depend on what was declared before
(`readDeclarations_problems`).
-/

namespace Xml

open Text List

variable {subset rest text : List Char}

namespace Declarations

/-! ## Problems -/

theorem readFrom_cons (r : Reading) (c : Char) (rest : List Char) :
    readFrom r (c :: rest) =
      match after? "<!--".toList (c :: rest) with
      | some inside =>
        match breakOn "-->".toList inside with
        | some (_, tail) => readFrom r tail
        | none => r
      | none =>
        match after? "<?".toList (c :: rest) with
        | some _ =>
          match breakOn "?>".toList (c :: rest) with
          | some (_, tail) => readFrom r tail
          | none => r
        | none =>
          match after? "<!ENTITY".toList (c :: rest) with
          | some inside =>
            readFrom (r.add (readEntity inside).1) (skipDeclaration (readEntity inside).2)
          | none =>
            match after? "<!".toList (c :: rest) with
            | some _ => readFrom r (skipDeclaration (c :: rest))
            | none => readFrom r rest := by
  generalize htext : c :: rest = text
  fun_cases readFrom r text with
  | case1 => cases htext
  | case2 _ _ inside hc _ tail hb => simp only [hc, hb]
  | case3 _ _ inside hc hb => simp only [hc, hb]
  | case4 _ _ hc _ hp _ tail hb => simp only [hc, hp, hb]
  | case5 _ _ hc _ hp hb => simp only [hc, hp, hb]
  | case6 _ _ hc hp inside he => simp only [hc, hp, he]
  | case7 _ _ hc hp he _ ht => simp only [hc, hp, he, ht]
  | case8 _ _ hc hp he ht =>
    cases htext
    simp only [hc, hp, he, ht]

theorem Reading.problems_add {r r' : Reading} (h : r.problems = r'.problems)
    (found : Except DeclarationProblem EntityDeclaration) :
    (r.add found).problems = (r'.add found).problems := by
  cases found with
  | ok d => exact h
  | error problem => exact congrArg (problem :: ·) h

theorem problems_readFrom (text : List Char) {r r' : Reading} (h : r.problems = r'.problems) :
    (readFrom r text).problems = (readFrom r' text).problems := by
  fun_induction readFrom r text generalizing r' with
  | case1 r =>
    rw [readFrom]
    exact h
  | case2 r c rest inside hc before tail hb _ _ ih =>
    simp only [readFrom_cons r', hc, hb]
    exact ih h
  | case3 r c rest inside hc hb =>
    simp only [readFrom_cons r', hc, hb]
    exact h
  | case4 r c rest hc inside hp before tail hb _ ih =>
    simp only [readFrom_cons r', hc, hp, hb]
    exact ih h
  | case5 r c rest hc inside hp hb =>
    simp only [readFrom_cons r', hc, hp, hb]
    exact h
  | case6 r c rest hc hp inside he _ _ _ ih =>
    simp only [readFrom_cons r', hc, hp, he]
    exact ih (Reading.problems_add h _)
  | case7 r c rest hc hp he tail ht _ ih =>
    simp only [readFrom_cons r', hc, hp, he, ht]
    exact ih h
  | case8 r c rest hc hp he ht ih =>
    simp only [readFrom_cons r', hc, hp, he, ht]
    exact ih h

end Declarations

/-- What is wrong with declarations does not depend on the entities declared before. -/
theorem readDeclarations_problems (text : List Char) (table : EntityTable) :
    (readDeclarations text table).2 = (readDeclarations text {}).2 :=
  congrArg List.reverse (Declarations.problems_readFrom text rfl)

namespace Declarations

/-! ## The end of a subset -/

theorem subsetEnd?_cons (c : Char) (rest : List Char) :
    subsetEnd? (c :: rest) =
      if c == ']' then some rest
      else if c == '"' || c == '\'' then
        match breakOn [c] rest with
        | some (_, tail) => subsetEnd? tail
        | none => none
      else
        match after? "<!--".toList (c :: rest) with
        | some inside =>
          match breakOn "-->".toList inside with
          | some (_, tail) => subsetEnd? tail
          | none => none
        | none =>
          match after? "<?".toList (c :: rest) with
          | some inside =>
            match breakOn "?>".toList inside with
            | some (_, tail) => subsetEnd? tail
            | none => none
          | none => subsetEnd? rest := by
  rw [subsetEnd?]
  split
  · rfl
  split
  · split
    · next hb => simp only [hb]
    · next hb => simp only [hb]
  · split
    · next hc =>
      split
      · next hb => simp only [hc, hb]
      · next hb => simp only [hc, hb]
    · next hc =>
      split
      · next hp =>
        split
        · next hb => simp only [hc, hp, hb]
        · next hb => simp only [hc, hp, hb]
      · next hp => simp only [hc, hp]

/-- A subset: text whose end is the `]` that follows it, whatever stands behind. -/
def IsSubset (subset : List Char) : Prop :=
  ∀ rest, subsetEnd? (subset ++ ']' :: rest) = some rest

/-- A mark without a bracket that begins in front of one lies there entirely. -/
theorem prefix_of_prefix_bracket {mark : List Char} (hm : ']' ∉ mark)
    (h : mark <+: subset ++ ']' :: rest) : mark <+: subset := by
  rcases Nat.lt_or_ge subset.length mark.length with hlt | hle
  · have hpre : subset ++ [']'] <+: mark := by
      refine prefix_of_prefix_length_le ?_ h ?_
      · exact ⟨rest, by simp⟩
      · rw [length_append, length_singleton]
        omega
    exact absurd (hpre.subset (by simp)) hm
  · exact prefix_of_prefix_length_le h (prefix_append _ _) hle

theorem after?_of_bracket {mark : List Char} (hm : ']' ∉ mark)
    (h : after? mark (subset ++ ']' :: rest) = none) (rest' : List Char) :
    after? mark (subset ++ ']' :: rest') = none :=
  after?_eq_none fun hp => not_prefix_of_after?_eq_none h
    ((prefix_of_prefix_bracket hm hp).trans (prefix_append _ _))

theorem isSubset_nil : IsSubset [] := by
  intro rest
  rw [nil_append, subsetEnd?_cons]
  exact if_pos (by decide)

theorem IsSubset.literal {q : Char} {value : List Char} (hq : q = '"' ∨ q = '\'') (hv : q ∉ value)
    (h : IsSubset subset) : IsSubset (q :: value ++ q :: subset) := by
  intro rest
  have hb : breakOn [q] (value ++ q :: (subset ++ ']' :: rest)) =
      some (value, subset ++ ']' :: rest) := breakOn_singleton_iff.mpr ⟨rfl, hv⟩
  have hend : (q == ']') = false := by rcases hq with rfl | rfl <;> decide
  have hquote : (q == '"' || q == '\'') = true := by simpa using hq
  simp only [cons_append, append_assoc, subsetEnd?_cons, hend, hquote, hb, if_true]
  exact h rest

theorem IsSubset.comment (ht : ¬ "-->".toList <:+: text) (h : IsSubset subset) :
    IsSubset ("<!--".toList ++ text ++ "-->".toList ++ subset) := by
  intro rest
  have hc : after? "<!--".toList
      ('<' :: ("!--".toList ++ (text ++ "-->".toList ++ (subset ++ ']' :: rest)))) =
      some (text ++ "-->".toList ++ (subset ++ ']' :: rest)) := after?_append _ _
  have hb : breakOn "-->".toList (text ++ "-->".toList ++ (subset ++ ']' :: rest)) =
      some (text, subset ++ ']' :: rest) := breakOn_append (by decide) (by decide) ht _
  have htext : "<!--".toList ++ text ++ "-->".toList ++ subset ++ ']' :: rest =
      '<' :: ("!--".toList ++ (text ++ "-->".toList ++ (subset ++ ']' :: rest))) := by
    simp only [append_assoc]
    rfl
  rw [htext, subsetEnd?_cons, if_neg (by decide), if_neg (by decide)]
  simp only [hc, hb]
  exact h rest

theorem IsSubset.instruction (ht : ¬ "?>".toList <:+: text) (h : IsSubset subset) :
    IsSubset ("<?".toList ++ text ++ "?>".toList ++ subset) := by
  intro rest
  have hc : after? "<!--".toList
      ('<' :: '?' :: (text ++ "?>".toList ++ (subset ++ ']' :: rest))) = none := by
    refine after?_eq_none fun hp => ?_
    cases (cons_prefix_cons.mp (cons_prefix_cons.mp hp).2).1
  have hp : after? "<?".toList
      ('<' :: '?' :: (text ++ "?>".toList ++ (subset ++ ']' :: rest))) =
      some (text ++ "?>".toList ++ (subset ++ ']' :: rest)) := after?_append _ _
  have hb : breakOn "?>".toList (text ++ "?>".toList ++ (subset ++ ']' :: rest)) =
      some (text, subset ++ ']' :: rest) := breakOn_append (by decide) (by decide) ht _
  have htext : "<?".toList ++ text ++ "?>".toList ++ subset ++ ']' :: rest =
      '<' :: '?' :: (text ++ "?>".toList ++ (subset ++ ']' :: rest)) := by
    simp only [append_assoc]
    rfl
  rw [htext, subsetEnd?_cons, if_neg (by decide), if_neg (by decide)]
  simp only [hc, hp, hb]
  exact h rest

/-- **The end of a subset does not depend on what follows it.** -/
theorem subsetEnd?_eq_some (h : subsetEnd? text = some rest) :
    ∃ subset, text = subset ++ ']' :: rest ∧ IsSubset subset := by
  fun_induction subsetEnd? text with
  | case1 => cases h
  | case2 c tail hc =>
    cases h
    rw [beq_iff_eq.mp hc]
    exact ⟨[], rfl, isSubset_nil⟩
  | case3 c tail hc hq before after hb _ ih =>
    obtain ⟨subset, rfl, hs⟩ := ih h
    obtain ⟨rfl, hout⟩ := breakOn_singleton_iff.mp hb
    exact ⟨c :: before ++ c :: subset, by simp, .literal (by simpa using hq) hout hs⟩
  | case4 => cases h
  | case5 c tail hc hq inside hcomment before after hb _ _ ih =>
    obtain ⟨subset, rfl, hs⟩ := ih h
    obtain ⟨rfl, hout⟩ := (breakOn_eq_some_iff (by decide) (by decide)).mp hb
    exact ⟨_, by rw [after?_eq hcomment]; simp only [append_assoc], .comment hout hs⟩
  | case6 => cases h
  | case7 c tail hc hq hcomment inside hp before after hb _ _ ih =>
    obtain ⟨subset, rfl, hs⟩ := ih h
    obtain ⟨rfl, hout⟩ := (breakOn_eq_some_iff (by decide) (by decide)).mp hb
    exact ⟨_, by rw [after?_eq hp]; simp only [append_assoc], .instruction hout hs⟩
  | case8 => cases h
  | case9 c tail hc hq hcomment hp ih =>
    obtain ⟨subset, rfl, hs⟩ := ih h
    refine ⟨c :: subset, rfl, fun rest' => ?_⟩
    have hnone {mark : List Char} (hm : ']' ∉ mark)
        (h : after? mark (c :: subset ++ ']' :: rest) = none) :
        after? mark (c :: (subset ++ ']' :: rest')) = none := after?_of_bracket hm h rest'
    rw [cons_append, subsetEnd?_cons, if_neg hc, if_neg hq]
    simp only [hnone (by decide) hcomment, hnone (by decide) hp]
    exact hs rest'

theorem splitSubset?_append (h : IsSubset subset) (rest : List Char) :
    splitSubset? (subset ++ ']' :: rest) = some (subset, rest) := by
  rw [splitSubset?, h rest, Option.map_some, take_left' (by simp; omega)]

theorem splitSubset?_eq_some_iff :
    splitSubset? text = some (subset, rest) ↔ text = subset ++ ']' :: rest ∧ IsSubset subset := by
  constructor
  · intro h
    obtain ⟨tail, htail, -⟩ := Option.map_eq_some_iff.mp h
    obtain ⟨subset', rfl, hs⟩ := subsetEnd?_eq_some htail
    rw [splitSubset?_append hs] at h
    cases h
    exact ⟨rfl, hs⟩
  · rintro ⟨rfl, hs⟩
    exact splitSubset?_append hs rest

end Declarations

end Xml
