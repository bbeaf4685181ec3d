import Mathlib.Data.List.Infix
import Mathlib.Data.List.TakeWhile
import Xml.Text.Reference

/-!
# What the readers read

Each reader is characterised by the texts it accepts: which text it takes off the front, and what
may stand behind it. A reader that takes as much as it can needs to know that what follows does not
go on with it; a reader that looks for a mark finds the first one.

* `breakOn_eq_some_iff` — the text in front of the first mark
* `readName?_eq_some_iff`, `readQuoted?_eq_some_iff` — names and literals
* `findInvalid?_eq_none_iff` — the search for forbidden characters, whose look at bytes first is
  no more than a shortcut
-/

namespace Xml.Text

open List

variable {mark text rest before : List Char} {c : Char}

/-! ## Marks -/

/-- A mark that cannot begin inside itself. -/
def Unbordered (mark : List Char) : Prop :=
  ∀ k, 0 < k → k < mark.length → ¬ mark.drop k <+: mark

theorem unbordered_singleton (c : Char) : Unbordered [c] := by
  intro k h0 h1
  rw [length_singleton] at h1
  omega

instance (mark : List Char) : Decidable (Unbordered mark) :=
  decidable_of_iff (∀ k, k < mark.length → 0 < k → ¬ mark.drop k <+: mark)
    ⟨fun h k h0 h1 => h k h1 h0, fun h k h1 h0 => h k h0 h1⟩

theorem after?_append (mark rest : List Char) : after? mark (mark ++ rest) = some rest := by
  rw [after?, if_pos ( isPrefixOf_iff_prefix.mpr (prefix_append mark rest)),
    drop_left]

theorem after?_eq_none (h : ¬ mark <+: text) : after? mark text = none :=
  if_neg fun hp => h ( isPrefixOf_iff_prefix.mp hp)

theorem not_prefix_of_after?_eq_none (h : after? mark text = none) : ¬ mark <+: text := by
  rintro ⟨rest, rfl⟩
  rw [after?_append] at h
  cases h

/-- In front of an unbordered mark no other begins, unless it lies there entirely. -/
theorem Unbordered.not_prefix (hu : Unbordered mark) (rest : List Char) (hne : before ≠ [])
    (hb : ¬ mark <:+: before) : ¬ mark <+: before ++ mark ++ rest := by
  rw [append_assoc]
  intro hp
  rcases Nat.lt_or_ge before.length mark.length with hlt | hle
  · have hpre : before <+: mark :=
      prefix_of_prefix_length_le (prefix_append _ _) hp (Nat.le_of_lt hlt)
    obtain ⟨tail, rfl⟩ := hpre
    refine hu before.length (length_pos_iff.mpr hne) hlt ?_
    rw [drop_left]
    have htail : tail <+: before ++ tail ++ rest := (prefix_append_right_inj before).mp hp
    refine prefix_of_prefix_length_le htail (prefix_append _ _) ?_
    rw [length_append]
    exact Nat.le_add_left _ _
  · exact hb (prefix_of_prefix_length_le hp (prefix_append _ _) hle).isInfix

/-- The search does not depend on what was passed before. -/
theorem breakFrom_eq_map (mark passed text : List Char) :
    breakFrom mark passed text =
      (breakOn mark text).map fun found => (passed.reverse ++ found.1, found.2) := by
  rw [breakOn]
  induction text generalizing passed with
  | nil => simp only [breakFrom]; split <;> simp
  | cons c text ih =>
    simp only [breakFrom]
    split
    · simp
    · rw [ih (c :: passed), ih [c]]
      cases breakFrom mark [] text <;> simp

theorem breakOn_cons (mark : List Char) (c : Char) (text : List Char) :
    breakOn mark (c :: text) =
      match after? mark (c :: text) with
      | some tail => some ([], tail)
      | none => (breakOn mark text).map fun found => (c :: found.1, found.2) := by
  rw [breakOn, breakFrom]
  cases after? mark (c :: text) with
  | some tail => rfl
  | none => exact breakFrom_eq_map mark [c] text

theorem breakOn_nil (hm : mark ≠ []) : breakOn mark [] = none := by
  rw [breakOn, breakFrom, if_neg (by simpa using hm)]

/-- The search stops at the mark in front of which there is none. -/
theorem breakOn_append (hm : mark ≠ []) (hu : Unbordered mark) (hb : ¬ mark <:+: before)
    (rest : List Char) : breakOn mark (before ++ mark ++ rest) = some (before, rest) := by
  induction before with
  | nil =>
    obtain ⟨c, cs, rfl⟩ := exists_cons_of_ne_nil hm
    rw [nil_append, cons_append, breakOn_cons, ← cons_append, after?_append]
  | cons c before ih =>
    have ha := after?_eq_none (hu.not_prefix rest (cons_ne_nil c before) hb)
    have hb' : ¬ mark <:+: before := fun h => hb (infix_cons h)
    rw [cons_append, cons_append] at *
    rw [breakOn_cons, ha, ih hb']
    rfl

/-- What lies in front of the mark that was found holds none. -/
theorem not_infix_of_breakOn (hm : mark ≠ []) (h : breakOn mark text = some (before, rest)) :
    ¬ mark <:+: before := by
  induction text generalizing before with
  | nil =>
    rw [breakOn_nil hm] at h
    cases h
  | cons c text ih =>
    have heq := breakOn_eq h
    rw [breakOn_cons] at h
    split at h
    · cases h
      rw [infix_nil]
      exact hm
    · next ha =>
      obtain ⟨⟨b, r⟩, hb, he⟩ := Option.map_eq_some_iff.mp h
      cases he
      intro hi
      rcases infix_cons_iff.mp hi with hp | hi
      · refine not_prefix_of_after?_eq_none ha ?_
        rw [heq, append_assoc]
        exact hp.trans (prefix_append _ _)
      · exact ih hb hi

/-- **The text in front of the first mark**, for a mark that cannot begin inside itself. -/
theorem breakOn_eq_some_iff (hm : mark ≠ []) (hu : Unbordered mark) :
    breakOn mark text = some (before, rest) ↔
      text = before ++ mark ++ rest ∧ ¬ mark <:+: before := by
  constructor
  · exact fun h => ⟨breakOn_eq h, not_infix_of_breakOn hm h⟩
  · rintro ⟨rfl, hb⟩
    exact breakOn_append hm hu hb rest

theorem contains_iff (hm : mark ≠ []) (text : List Char) :
    contains mark text = true ↔ mark <:+: text := by
  rw [contains]
  induction text with
  | nil => simp [breakOn_nil hm, hm]
  | cons c text ih =>
    rw [breakOn_cons, infix_cons_iff]
    split
    · next tail ha =>
      have hp : mark <+: c :: text := after?_eq ha ▸ prefix_append _ _
      simp [hp]
    · next ha =>
      rw [Option.isSome_map, ih]
      simp [not_prefix_of_after?_eq_none ha]

theorem infix_append_cons_iff (hc : c ∉ mark) :
    mark <:+: before ++ c :: rest ↔ mark <:+: before ∨ mark <:+: rest := by
  constructor
  · rintro ⟨l, r, h⟩
    rcases append_eq_append_iff.mp h with ⟨more, hlm, -⟩ | ⟨more, hlm, hr⟩
    · exact .inl ⟨l, more, hlm.symm⟩
    · cases more with
      | nil => exact .inl ⟨l, [], by simpa using hlm⟩
      | cons d more =>
        -- the mark ends behind the `c`, so it begins there as well
        obtain ⟨rfl, rfl⟩ := List.cons.inj hr
        rcases append_eq_append_iff.mp hlm with ⟨tail, -, hmark⟩ | ⟨tail, -, hmark⟩
        · exact absurd (hmark ▸ mem_append_right _ mem_cons_self) hc
        · cases tail with
          | nil => exact absurd (nil_append mark ▸ hmark ▸ mem_cons_self) hc
          | cons e tail =>
            obtain ⟨rfl, rfl⟩ := List.cons.inj hmark
            exact .inr ⟨tail, r, by simp⟩
  · rintro (⟨l, r, rfl⟩ | ⟨l, r, rfl⟩)
    · exact ⟨l, r ++ c :: rest, by simp⟩
    · exact ⟨before ++ c :: l, r, by simp⟩

theorem breakOn_eq_none_iff (hm : mark ≠ []) : breakOn mark text = none ↔ ¬ mark <:+: text := by
  rw [← contains_iff hm, contains, Option.isSome_iff_ne_none, not_not]

theorem exists_eq_append_of_infix (hm : mark ≠ []) (hu : Unbordered mark) (h : mark <:+: text) :
    ∃ before rest, text = before ++ mark ++ rest ∧ ¬ mark <:+: before := by
  cases hfound : breakOn mark text with
  | none => exact absurd h ((breakOn_eq_none_iff hm).mp hfound)
  | some found => exact ⟨found.1, found.2, (breakOn_eq_some_iff hm hu).mp hfound⟩

/-- The search passes over a text without the mark, up to a character that is not in the mark. -/
theorem breakOn_append_cons (hm : mark ≠ []) (hu : Unbordered mark) (hc : c ∉ mark)
    (hb : ¬ mark <:+: before) (rest : List Char) :
    breakOn mark (before ++ c :: rest) =
      (breakOn mark rest).map fun found => (before ++ c :: found.1, found.2) := by
  cases h : breakOn mark rest with
  | none =>
    rw [breakOn_eq_none_iff hm] at h
    rw [Option.map_none, breakOn_eq_none_iff hm, infix_append_cons_iff hc]
    exact not_or.mpr ⟨hb, h⟩
  | some found =>
    obtain ⟨b, r⟩ := found
    obtain ⟨rfl, hb'⟩ := (breakOn_eq_some_iff hm hu).mp h
    rw [Option.map_some, breakOn_eq_some_iff hm hu, infix_append_cons_iff hc]
    exact ⟨by simp, not_or.mpr ⟨hb, hb'⟩⟩

/-- The text in front of the first occurrence of a character. -/
theorem breakOn_singleton_iff :
    breakOn [c] text = some (before, rest) ↔ text = before ++ c :: rest ∧ c ∉ before := by
  rw [breakOn_eq_some_iff (cons_ne_nil _ _) (unbordered_singleton c), singleton_infix_iff,
    append_assoc]
  rfl

/-! ## Stretches of one class -/

/-- The text does not begin with a character of the class. -/
def StopsAt (p : Char → Bool) (text : List Char) : Prop :=
  ∀ c, text.head? = some c → p c = false

theorem stopsAt_nil (p : Char → Bool) : StopsAt p [] := by
  intro c hc
  cases hc

theorem stopsAt_cons {p : Char → Bool} : StopsAt p (c :: text) ↔ p c = false := by
  constructor
  · exact fun h => h c rfl
  · intro h x hx
    cases hx
    exact h

theorem stopsAt_dropWhile (p : Char → Bool) (text : List Char) : StopsAt p (text.dropWhile p) := by
  intro c hc
  have h := head?_dropWhile_not p text
  rw [hc] at h
  exact h

/-- A stretch of one class is taken off as a whole, if the class stops behind it. -/
theorem takeWhile_append_of_stopsAt {p : Char → Bool} {l : List Char} (hl : ∀ c ∈ l, p c = true)
    (hrest : StopsAt p rest) : (l ++ rest).takeWhile p = l ∧ (l ++ rest).dropWhile p = rest := by
  induction l with
  | nil =>
    cases rest with
    | nil => exact ⟨rfl, rfl⟩
    | cons c rest => simp [stopsAt_cons.mp hrest]
  | cons c l ih =>
    obtain ⟨ht, hd⟩ := ih fun x hx => hl x (mem_cons_of_mem _ hx)
    simp [hl c mem_cons_self, ht, hd]

/-! ## White space and names -/

/-- White space, possibly none. -/
def IsSpace (text : List Char) : Prop :=
  ∀ c ∈ text, isBlank c = true

theorem IsSpace.not_mem {w : List Char} (hw : IsSpace w) (hc : isBlank c = false) : c ∉ w :=
  fun h => Bool.false_ne_true (hc.symm.trans (hw c h))

theorem skipBlanks_append {w : List Char} (hw : IsSpace w) (hrest : StopsAt isBlank rest) :
    skipBlanks (w ++ rest) = rest :=
  (takeWhile_append_of_stopsAt hw hrest).2

/-- A text is the white space it begins with and the rest behind that. -/
theorem exists_space_append (text : List Char) :
    ∃ w, IsSpace w ∧ text = w ++ skipBlanks text ∧ StopsAt isBlank (skipBlanks text) :=
  ⟨text.takeWhile isBlank, fun _ hc => mem_takeWhile_imp hc,
    takeWhile_append_dropWhile.symm, stopsAt_dropWhile isBlank text⟩

/-- A name: a character that can begin one, then characters that can continue one. -/
def IsName (text : List Char) : Prop :=
  ∃ c rest, text = c :: rest ∧ startsName c = true ∧ ∀ x ∈ rest, continuesName x = true

/-- **Reading a name** takes it whole: it ends where the characters of names end. -/
theorem readName?_eq_some_iff {name : List Char} :
    readName? text = some (name, rest) ↔
      text = name ++ rest ∧ IsName name ∧ StopsAt continuesName rest := by
  constructor
  · intro h
    refine ⟨readName?_eq h, ?_⟩
    cases text with
    | nil => cases h
    | cons c tail =>
      rw [readName?] at h
      split at h
      · next hc =>
        cases h
        exact ⟨⟨c, _, rfl, hc, fun x hx => mem_takeWhile_imp hx⟩,
          stopsAt_dropWhile continuesName tail⟩
      · cases h
  · rintro ⟨rfl, ⟨c, tail, rfl, hc, htail⟩, hrest⟩
    obtain ⟨ht, hd⟩ := takeWhile_append_of_stopsAt htail hrest
    rw [cons_append, readName?, if_pos hc, ht, hd]

theorem isName_iff (text : List Char) : isName text = true ↔ IsName text := by
  rw [isName]
  constructor
  · intro h
    split at h
    · next name rest hr =>
      obtain ⟨rfl, hn, -⟩ := readName?_eq_some_iff.mp hr
      rw [List.isEmpty_iff.mp h, append_nil]
      exact hn
    · cases h
  · intro h
    have hr : readName? text = some (text, []) :=
      readName?_eq_some_iff.mpr ⟨(append_nil _).symm, h, stopsAt_nil _⟩
    rw [hr]
    rfl

/-! ## Literals -/

/-- **Reading a literal**: up to the quote it begins with. -/
theorem readQuoted?_eq_some_iff {value : List Char} :
    readQuoted? text = some (value, rest) ↔
      ∃ q, (q = '"' ∨ q = '\'') ∧ q ∉ value ∧ text = q :: value ++ q :: rest := by
  rw [readQuoted?]
  constructor
  · intro h
    split at h
    · next v r hl =>
      cases h
      cases text with
      | nil => cases hl
      | cons c tail =>
        rw [readLiteral] at hl
        split at hl
        · next hq =>
          split at hl
          · next hb =>
            cases hl
            obtain ⟨rfl, hout⟩ := breakOn_singleton_iff.mp hb
            exact ⟨c, by simpa using hq, hout, rfl⟩
          · cases hl
        · cases hl
    · cases h
  · rintro ⟨q, hq, hout, rfl⟩
    have hq' : (q == '"' || q == '\'') = true := by simpa using hq
    have hb : breakOn [q] (value ++ q :: rest) = some (value, rest) :=
      breakOn_singleton_iff.mpr ⟨rfl, hout⟩
    rw [cons_append, readLiteral, if_pos hq', hb]

theorem readQuoted?_append {value : List Char} (h : readQuoted? text = some (value, rest))
    (more : List Char) : readQuoted? (text ++ more) = some (value, rest ++ more) := by
  obtain ⟨q, hq, hout, rfl⟩ := readQuoted?_eq_some_iff.mp h
  exact readQuoted?_eq_some_iff.mpr ⟨q, hq, hout, by simp⟩

/-! ## Forbidden characters -/

theorem isSuspectByte_control :
    ∀ n, n < 0x20 → n ≠ 0x9 → n ≠ 0xA → n ≠ 0xD → isSuspectByte (UInt8.ofNat n) = true := by
  decide

/-- A character without a suspect byte may stand in a document. The forbidden ones are control
characters, which are their own byte, and U+FFFE, U+FFFF, whose first byte is suspect. -/
theorem isXmlChar_of_not_suspect (h : (String.utf8EncodeChar c).any isSuspectByte = false) :
    isXmlChar c.toNat = true := by
  have hvalid : c.toNat < 0xD800 ∨ 0xDFFF < c.toNat ∧ c.toNat < 0x110000 := c.valid
  by_contra hx
  simp only [isXmlChar, Bool.or_eq_true, beq_iff_eq, Bool.and_eq_true, decide_eq_true_eq] at hx
  push Not at hx
  obtain ⟨⟨⟨⟨⟨h9, hA⟩, hD⟩, hlow⟩, hmid⟩, hhigh⟩ := hx
  have hcases : c.toNat < 0x20 ∨ c.toNat = 0xFFFE ∨ c.toNat = 0xFFFF := by omega
  rw [String.utf8EncodeChar, show c.val.toNat = c.toNat from rfl] at h
  rcases hcases with hlt | he | he
  · rw [if_pos (by omega)] at h
    simp [isSuspectByte_control c.toNat hlt h9 hA hD] at h
  · rw [he] at h
    exact absurd h (by decide)
  · rw [he] at h
    exact absurd h (by decide)

/-- **The search for forbidden characters finds them all.** -/
theorem findInvalid?_eq_none_iff (text : List Char) :
    findInvalid? text = none ↔ ∀ c ∈ text, isXmlChar c.toNat = true := by
  rw [findInvalid?]
  split
  · rw [find?_eq_none]
    simp
  · next hs =>
    rw [isSuspect, Bool.not_eq_true, any_eq_false] at hs
    simp only [true_iff]
    exact fun c hc => isXmlChar_of_not_suspect (Bool.not_eq_true _ ▸ hs c hc)

end Xml.Text
