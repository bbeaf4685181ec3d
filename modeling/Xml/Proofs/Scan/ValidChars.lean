import Xml.Proofs.Bounds.Encoded
import Xml.Proofs.Scan.Values

/-!
# Characters a document may hold

Text is checked by a look at its bytes first; only where one of them is suspect are the characters
looked at. Every forbidden character has a suspect byte, so nothing gets by (`char_check_exact`).
-/

namespace Xml.Scan

open Text List

/-- The production `Char` of XML 1.0:
`#x9 | #xA | #xD | [#x20-#xD7FF] | [#xE000-#xFFFD] | [#x10000-#x10FFFF]`. -/
def IsChar (c : Char) : Prop :=
  c ∈ ['\t', '\n', '\r'] ∨ 0x20 ≤ c.toNat ∧ c.toNat ≤ 0xD7FF ∨
    0xE000 ≤ c.toNat ∧ c.toNat ≤ 0xFFFD ∨ 0x10000 ≤ c.toNat ∧ c.toNat ≤ 0x10FFFF
deriving Decidable

theorem isXmlChar_iff (c : Char) : isXmlChar c.toNat = true ↔ IsChar c := by
  simp [isXmlChar, IsChar, ← Char.toNat_inj, or_assoc]

theorem isSuspect_eq (text : List Char) :
    isSuspect text = (String.ofList text).toUTF8.toList.any isSuspectByte := by
  rw [Bounds.toList_toUTF8, String.toList_ofList, Bounds.encode, any_flatMap, isSuspect]

/-- A text without suspect bytes has no forbidden characters, so the look at the bytes changes
nothing. -/
theorem findInvalid?_eq_find? (text : List Char) :
    findInvalid? text = text.find? fun c => !isXmlChar c.toNat := by
  cases hs : isSuspect text with
  | true => rw [findInvalid?, if_pos hs]
  | false =>
    have hnone : findInvalid? text = none := by simp [findInvalid?, hs]
    rw [hnone, eq_comm, find?_eq_none]
    simpa using (findInvalid?_eq_none_iff text).mp hnone

/-- **The check of characters is exact.** Whether a byte of the UTF-8 form is suspect decides
whether the characters are looked at, and still the first character that is no `Char` is found, if
there is one. So text is accepted if it consists of `Char`s, and else refused for that character. -/
theorem char_check_exact (text : List Char) :
    isSuspect text = (String.ofList text).toUTF8.toList.any isSuspectByte ∧
      (findInvalid? text = text.find? fun c => !isXmlChar c.toNat) ∧
      (∀ c, findInvalid? text = some c ↔ ∃ before after, text = before ++ c :: after ∧
        (∀ b ∈ before, IsChar b) ∧ ¬ IsChar c) ∧
      (findInvalid? text = none ↔ ∀ c ∈ text, IsChar c) ∧
      ∀ (env : Env) (site : CharSite) (place : List Char) (s : State),
        (checkChars env site text place s = .ok () s ↔ ∀ c ∈ text, IsChar c) ∧
        checkChars env site text place s = (findInvalid? text).elim (.ok () s) fun c =>
          .error (env.errorAt (.invalidChar site c.toNat) place) s := by
  have hnone : findInvalid? text = none ↔ ∀ c ∈ text, IsChar c := by
    simp only [findInvalid?_eq_none_iff, isXmlChar_iff]
  refine ⟨isSuspect_eq text, findInvalid?_eq_find? text, fun c => ?_, hnone,
    fun env site place s => ⟨?_, ?_⟩⟩
  · rw [findInvalid?_eq_find?, find?_eq_some_iff_append]
    simp only [← isXmlChar_iff]
    grind
  · rw [← hnone]
    constructor
    · intro h
      exact (findInvalid?_eq_none_iff text).mpr (checkChars_eq_ok h).1
    · intro h
      exact checkChars_of ((findInvalid?_eq_none_iff text).mp h)
  · rw [checkChars]
    cases findInvalid? text <;> rfl

end Xml.Scan
