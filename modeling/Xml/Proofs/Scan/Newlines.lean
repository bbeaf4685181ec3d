import Xml.Proofs.Scan.Lexical

/-!
# Line ends

Normalizing line ends replaces white space by white space and leaves everything else where it is. So
what is told apart by other characters is told apart before and after it at the same places.
-/

namespace Xml.Text

open List

variable {text mark : List Char} {c : Char}

/-- A character that is no carriage return in front of a line feed. -/
theorem normalizeNewlines_cons (h : c = '\r' → text.head? ≠ some '\n') :
    normalizeNewlines (c :: text) = (if c == '\r' then '\n' else c) :: normalizeNewlines text := by
  rw [normalizeNewlines]
  rintro rest rfl rfl
  exact h rfl rfl

/-- Text that does not begin with a line feed can be put behind any other. -/
theorem normalizeNewlines_append {rest : List Char} (h : rest.head? ≠ some '\n') :
    normalizeNewlines (text ++ rest) = normalizeNewlines text ++ normalizeNewlines rest := by
  fun_induction normalizeNewlines text with
  | case1 => rfl
  | case2 text ih => exact congrArg ('\n' :: ·) ih
  | case3 c text hc ih =>
    rw [cons_append, normalizeNewlines_cons, ih]
    · rfl
    · rintro rfl
      cases text with
      | nil => exact h
      | cons d text =>
        rintro hd
        exact hc text rfl (by rw [Option.some.inj hd])

theorem normalizeNewlines_append_of_not_mem (h : '\r' ∉ text) (rest : List Char) :
    normalizeNewlines (text ++ rest) = text ++ normalizeNewlines rest := by
  induction text with
  | nil => rfl
  | cons c text ih =>
    have hc : c ≠ '\r' := fun hc => h (hc ▸ mem_cons_self)
    rw [cons_append, normalizeNewlines_cons fun h => absurd h hc,
      ih (not_mem_of_not_mem_cons h), if_neg (by simpa using hc)]
    rfl

/-- A piece of the normalized text comes from a piece of the text. -/
theorem exists_of_normalizeNewlines_eq_append {x y : List Char}
    (h : normalizeNewlines text = x ++ y) :
    ∃ a b, text = a ++ b ∧ normalizeNewlines a = x ∧ normalizeNewlines b = y := by
  induction x generalizing text with
  | nil => exact ⟨[], text, rfl, rfl, h⟩
  | cons d x ih =>
    fun_cases normalizeNewlines text with
    | case1 => cases h
    | case2 rest =>
      obtain ⟨rfl, hrest⟩ := List.cons.inj h
      obtain ⟨a, b, rfl, rfl, rfl⟩ := ih hrest
      exact ⟨'\r' :: '\n' :: a, b, rfl, rfl, rfl⟩
    | case3 c rest hc =>
      have hne : c = '\r' → rest.head? ≠ some '\n' := by
        rintro rfl hhead
        obtain ⟨more, rfl⟩ := head?_eq_some_iff.mp hhead
        exact hc more rfl rfl
      rw [normalizeNewlines_cons hne] at h
      obtain ⟨rfl, hrest⟩ := List.cons.inj h
      obtain ⟨a, b, rfl, rfl, rfl⟩ := ih hrest
      refine ⟨c :: a, b, rfl, normalizeNewlines_cons fun hcr hhead => hne hcr ?_, rfl⟩
      rw [List.head?_append, hhead]
      rfl

theorem mem_normalizeNewlines (h : c ∈ text) :
    (if c == '\r' then '\n' else c) ∈ normalizeNewlines text := by
  fun_induction normalizeNewlines text with
  | case1 => cases h
  | case2 text ih =>
    rcases mem_cons.mp h with rfl | h
    · exact mem_cons_self
    · rcases mem_cons.mp h with rfl | h
      · exact mem_cons_self
      · exact mem_cons_of_mem _ (ih h)
  | case3 d text _ ih =>
    rcases mem_cons.mp h with rfl | h
    · exact mem_cons_self
    · exact mem_cons_of_mem _ (ih h)

theorem eq_of_normalizeNewlines_eq (h : normalizeNewlines text = mark) (hn : '\n' ∉ mark) :
    text = mark := by
  have hr : '\r' ∉ text := fun hm => hn (h ▸ mem_normalizeNewlines hm)
  rw [← h, ← append_nil text, normalizeNewlines_append_of_not_mem hr]
  rfl

theorem exists_of_normalizeNewlines_eq_mark_append {y : List Char}
    (h : normalizeNewlines text = mark ++ y) (hn : '\n' ∉ mark) :
    ∃ rest, text = mark ++ rest ∧ normalizeNewlines rest = y := by
  obtain ⟨a, rest, rfl, ha, hrest⟩ := exists_of_normalizeNewlines_eq_append h
  exact ⟨rest, by rw [eq_of_normalizeNewlines_eq ha hn], hrest⟩

/-- A mark without line ends in it stands in the normalized text where it stands in the text. -/
theorem infix_normalizeNewlines_iff (hr : '\r' ∉ mark) (hn : '\n' ∉ mark) :
    mark <:+: normalizeNewlines text ↔ mark <:+: text := by
  constructor
  · rintro ⟨l, r, h⟩
    obtain ⟨a, b, rfl, ha, -⟩ := exists_of_normalizeNewlines_eq_append h.symm
    obtain ⟨a, m, rfl, -, hm⟩ := exists_of_normalizeNewlines_eq_append ha
    exact ⟨a, b, by rw [eq_of_normalizeNewlines_eq hm hn]⟩
  · rintro ⟨l, r, rfl⟩
    cases mark with
    | nil => exact nil_infix
    | cons c mark =>
      refine ⟨normalizeNewlines l, normalizeNewlines r, ?_⟩
      rw [append_assoc l, normalizeNewlines_append, normalizeNewlines_append_of_not_mem hr,
        append_assoc]
      exact fun h => hn (Option.some.inj h ▸ mem_cons_self)

theorem IsSpace.of_normalizeNewlines (h : IsSpace (normalizeNewlines text)) : IsSpace text := by
  intro c hc
  have hmem := h _ (mem_normalizeNewlines hc)
  split at hmem
  · next hcr =>
    obtain rfl : c = '\r' := by simpa using hcr
    rfl
  · exact hmem

theorem startsBlank_normalizeNewlines (text : List Char) :
    startsBlank (normalizeNewlines text) = startsBlank text := by
  fun_cases normalizeNewlines text with
  | case1 => rfl
  | case2 => rfl
  | case3 c text _ =>
    by_cases hc : c = '\r'
    · subst hc; rfl
    · simp [startsBlank, hc]

end Xml.Text

namespace Xml.Grammar

open Text

/-- **The pseudo-attributes of a normalized text** are those of the text, each value normalized. -/
theorem PseudoAttributes.of_normalizeNewlines {items : List (List Char × List Char)}
    {text : List Char} (h : PseudoAttributes items (normalizeNewlines text)) :
    ∃ raws, PseudoAttributes raws text ∧
      items = raws.map fun raw => (raw.1, normalizeNewlines raw.2) := by
  generalize hnorm : normalizeNewlines text = normalized at h
  induction h generalizing text with
  | nil hs => exact ⟨[], .nil (hnorm ▸ hs).of_normalizeNewlines, rfl⟩
  | @cons space key before after value literal rest more hs hk hb ha hv _ ih =>
    cases hv with
    | @mk q hq hout =>
    have hkey : '\n' ∉ key := by
      simp only [declarationKeys, List.mem_cons, List.not_mem_nil, or_false] at hk
      rcases hk with rfl | rfl | rfl <;> decide
    have hqn : '\n' ∉ [q] := by rcases hq with rfl | rfl <;> decide
    have hflat : space ++ key ++ before ++ '=' :: after ++ (q :: value ++ [q]) ++ rest =
        space ++ (key ++ (before ++ (['='] ++ (after ++ ([q] ++ (value ++ ([q] ++ rest))))))) := by
      simp
    obtain ⟨space, _, rfl, rfl, h₁⟩ := exists_of_normalizeNewlines_eq_append (hnorm.trans hflat)
    obtain ⟨_, rfl, h₂⟩ := exists_of_normalizeNewlines_eq_mark_append h₁ hkey
    obtain ⟨before, _, rfl, rfl, h₃⟩ := exists_of_normalizeNewlines_eq_append h₂
    obtain ⟨_, rfl, h₄⟩ := exists_of_normalizeNewlines_eq_mark_append h₃ (by decide)
    obtain ⟨after, _, rfl, rfl, h₅⟩ := exists_of_normalizeNewlines_eq_append h₄
    obtain ⟨_, rfl, h₆⟩ := exists_of_normalizeNewlines_eq_mark_append h₅ hqn
    obtain ⟨value, _, rfl, rfl, h₇⟩ := exists_of_normalizeNewlines_eq_append h₆
    obtain ⟨rest, rfl, h₈⟩ := exists_of_normalizeNewlines_eq_mark_append h₇ hqn
    obtain ⟨raws, hraws, rfl⟩ := ih h₈
    have hqr : q ≠ '\r' := by rcases hq with rfl | rfl <;> decide
    have hout' : q ∉ value := fun hm => hout (by simpa [hqr] using mem_normalizeNewlines hm)
    have := PseudoAttributes.cons hs.of_normalizeNewlines hk hb.of_normalizeNewlines
      ha.of_normalizeNewlines (.mk hq hout') hraws
    exact ⟨(key, value) :: raws, by simpa using this, rfl⟩

end Xml.Grammar
