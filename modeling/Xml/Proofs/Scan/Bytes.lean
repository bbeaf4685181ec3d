import Mathlib.Algebra.GroupWithZero.Nat
import Xml.Proofs.Scan.Triple

/-!
# Bytes of what is read

The parts that a text is read into share its bytes. A reference to a character is not shorter than
the character, so what is read of a text is never longer than the text.
-/

namespace Xml

namespace Text

/-! ## Bytes -/

theorem byteSize_eq_sum (text : List Char) : byteSize text = (text.map Char.utf8Size).sum := by
  rw [byteSize, List.sum_eq_foldl, List.foldl_map]

@[simp] theorem byteSize_nil : byteSize [] = 0 := rfl

@[simp] theorem byteSize_cons (c : Char) (text : List Char) :
    byteSize (c :: text) = c.utf8Size + byteSize text := by
  simp [byteSize_eq_sum]

@[simp] theorem byteSize_append (text more : List Char) :
    byteSize (text ++ more) = byteSize text + byteSize more := by
  simp [byteSize_eq_sum]

theorem byteSize_le_of_suffix {text rest : List Char} (h : rest <:+ text) :
    byteSize rest ≤ byteSize text := by
  obtain ⟨passed, rfl⟩ := h
  rw [byteSize_append]
  omega

@[simp] theorem utf8ByteSize_ofList (text : List Char) :
    (String.ofList text).utf8ByteSize = byteSize text := by
  induction text with
  | nil => rfl
  | cons c text ih => simp [String.ofList_cons, ih]

theorem byteSize_toList (text : String) : byteSize text.toList = text.utf8ByteSize := by
  rw [← utf8ByteSize_ofList, String.ofList_toList]

/-- A reference to a character is not shorter than the character: `&`, `#` and `;` are three bytes,
and there is a digit. -/
theorem utf8Size_le_of_charRef? {body : List Char} {c : Char} (h : charRef? body = some c) :
    c.utf8Size ≤ byteSize body + 3 := by
  have hc := c.utf8Size_le_four
  cases body with
  | nil => cases h
  | cons d digits =>
    have hd := d.utf8Size_pos
    rw [byteSize_cons]
    omega

theorem utf8Size_of_predefined? {name : List Char} {c : Char} (h : predefined? name = some c) :
    c.utf8Size = 1 := by
  unfold predefined? at h
  split at h <;> cases h <;> rfl

theorem utf8Size_normalizeBlank_le (c : Char) : (normalizeBlank c).utf8Size ≤ c.utf8Size := by
  unfold normalizeBlank
  split
  · exact c.utf8Size_pos
  · exact le_rfl

theorem byteSize_breakOn {mark text before rest : List Char}
    (h : breakOn mark text = some (before, rest)) :
    byteSize before + byteSize mark + byteSize rest = byteSize text := by
  rw [breakOn_eq h, byteSize_append, byteSize_append]

theorem byteSize_readQuoted? {text value rest : List Char}
    (h : readQuoted? text = some (value, rest)) :
    byteSize value + byteSize rest ≤ byteSize text := by
  cases text with
  | nil => cases h
  | cons c tail =>
    simp only [readQuoted?, readLiteral] at h
    split at h
    · next hl =>
      cases h
      split at hl
      · split at hl
        · next hb =>
          cases hl
          have := byteSize_breakOn hb
          rw [byteSize_cons]
          omega
        · cases hl
      · cases hl
    · cases h

end Text

namespace Scan

open Text

/-- The bytes that a reference can stand for by itself. -/
def Reference.load : Reference → Nat
  | .char (some c) => c.utf8Size
  | .char none => 0
  | .entity _ => 1
  | .plain => 1

/-- A reference does not stand for more than it is written with, its `&` included. -/
theorem load_readReference (text : List Char) :
    (readReference text).1.load + byteSize (readReference text).2 ≤ byteSize text + 1 := by
  unfold readReference
  split
  · next inside =>
    have hmark : '#'.utf8Size = 1 := rfl
    split
    · next body rest hb =>
      have hsize := byteSize_breakOn hb
      have hend : byteSize [';'] = 1 := rfl
      rw [byteSize_cons]
      cases hc : charRef? body with
      | none =>
        show 0 + byteSize rest ≤ _
        omega
      | some c =>
        have hle := utf8Size_le_of_charRef? hc
        show c.utf8Size + byteSize rest ≤ _
        omega
    · show 0 + byteSize inside ≤ _
      rw [byteSize_cons]
      omega
  · split
    · next name rest hn =>
      have hs := byteSize_le_of_suffix ((List.suffix_cons _ _).trans (readName?_suffix hn))
      show 1 + byteSize rest ≤ _
      omega
    · show 1 + byteSize text ≤ _
      omega

/-- The bytes of the values of attributes as they are written. -/
def rawSize (raws : List RawAttribute) : Nat :=
  (raws.map fun raw => byteSize raw.raw).sum

def TagEnd.size : TagEnd → Nat
  | .opened rest | .closed rest => byteSize rest
  | .unfinished | .broken _ _ => 0

theorem byteSize_readAttribute {text raw rest : List Char} {name : String}
    (h : readAttribute text = .ok (name, raw, rest)) :
    byteSize raw + byteSize rest ≤ byteSize text := by
  simp only [readAttribute] at h
  split at h
  · cases h
  · next hn =>
    split at h
    · next tail hs =>
      split at h
      · next hq =>
        cases h
        have hquoted := byteSize_readQuoted? hq
        have hblank := byteSize_le_of_suffix (skipBlanks_suffix tail)
        have hname := byteSize_le_of_suffix ((skipBlanks_suffix _).trans (readName?_suffix hn))
        rw [hs, byteSize_cons] at hname
        omega
      · cases h
    · cases h

/-- What is read of a start tag and what follows it share the text. -/
theorem size_readAttributes (text : List Char) :
    rawSize (readAttributes text).1 + (readAttributes text).2.size ≤ byteSize text := by
  fun_induction readAttributes text with
  | case1 text hs => exact Nat.zero_le _
  | case2 text rest hs =>
    have h := byteSize_le_of_suffix (skipBlanks_suffix text)
    rw [hs, byteSize_cons] at h
    show 0 + byteSize rest ≤ byteSize text
    omega
  | case3 text rest hs =>
    have h := byteSize_le_of_suffix (skipBlanks_suffix text)
    rw [hs, byteSize_cons, byteSize_cons] at h
    show 0 + byteSize rest ≤ byteSize text
    omega
  | case4 => exact Nat.zero_le _
  | case5 text c rest _ _ hs _ name raw tail h _ _ _ attributes tagEnd hr ih =>
    have hblank := byteSize_le_of_suffix (skipBlanks_suffix text)
    have hread := byteSize_readAttribute h
    rw [hs] at hblank
    rw [hr] at ih
    have hcons : rawSize (⟨c :: rest, name, raw⟩ :: attributes) =
        byteSize raw + rawSize attributes := List.sum_cons
    show rawSize (⟨c :: rest, name, raw⟩ :: attributes) + tagEnd.size ≤ byteSize text
    dsimp only at ih
    omega
  | case6 => exact Nat.zero_le _

end Scan

end Xml
