import Xml.Proofs.Bounds.Access
import Xml.Text.Position

/-!
# The line and column of an offset

A problem is told with the line and column of its byte offset. The offset may be any number: it is
brought down to where the text can be cut, so the slices that are taken for counting are there.
-/

namespace Xml.Bounds

open Text List

/-- The last offset up to a given one where the text can be cut. -/
def floorCut (text : String) : Nat → Nat
  | 0 => 0
  | n + 1 => if IsCut text (n + 1) then n + 1 else floorCut text n

/-- The offset behind the last line feed. -/
def lineStart (text : String) : Nat :=
  text.utf8ByteSize - ((encode text.toList).reverse.takeWhile (· != byte '\n')).length

def lineColumn (text : String) (offset : Nat) : Checked Position := do
  let before ← slice text 0 (floorCut text (min offset text.utf8ByteSize))
  let line ← sliceFrom before (lineStart before)
  return ⟨before.toList.count '\n' + 1, line.toList.length + 1⟩

/-- Lines are counted by line feeds, columns from the last one on. -/
theorem ofBefore_eq (before : List Char) :
    Position.ofBefore before =
      ⟨before.count '\n' + 1, (before.reverse.takeWhile (· != '\n')).length + 1⟩ := by
  induction before using List.reverseRecOn with
  | nil => rfl
  | append_singleton before c ih =>
    have hstep : Position.ofBefore (before ++ [c]) = (Position.ofBefore before).next c := by
      simp [Position.ofBefore]
    rw [hstep, ih, Position.next]
    by_cases hc : c = '\n'
    · subst hc
      simp
    · simp [hc]

theorem charsUpTo_prefix (offset : Nat) (text : List Char) :
    Position.charsUpTo offset text <+: text := by
  induction text generalizing offset with
  | nil => exact prefix_rfl
  | cons c text ih =>
    rw [Position.charsUpTo]
    split
    · exact (prefix_cons_inj c).mpr (ih _)
    · exact nil_prefix

theorem byteSize_charsUpTo_le (offset : Nat) (text : List Char) :
    byteSize (Position.charsUpTo offset text) ≤ offset := by
  induction text generalizing offset with
  | nil => exact Nat.zero_le _
  | cons c text ih =>
    rw [Position.charsUpTo]
    split
    · have := ih (offset - c.utf8Size)
      rw [byteSize_cons]
      omega
    · exact Nat.zero_le _

/-- The characters up to an offset are the longest part of the text that fits. -/
theorem charsUpTo_longest {offset : Nat} {text part : List Char} (hp : part <+: text)
    (hle : byteSize part ≤ offset) : part <+: Position.charsUpTo offset text := by
  induction part generalizing offset text with
  | nil => exact nil_prefix
  | cons c part ih =>
    cases text with
    | nil => cases prefix_nil.mp hp
    | cons d text =>
      obtain ⟨rfl, htail⟩ := cons_prefix_cons.mp hp
      rw [byteSize_cons] at hle
      rw [Position.charsUpTo, if_pos (by omega)]
      exact (prefix_cons_inj c).mpr (ih htail (by omega))

theorem floorCut_eq {text : String} {m n : Nat} (hm : IsCut text m) (hle : m ≤ n)
    (hlast : ∀ k, m < k → k ≤ n → ¬ IsCut text k) : floorCut text n = m := by
  induction n with
  | zero => exact (Nat.le_zero.mp hle).symm
  | succ n ih =>
    rw [floorCut]
    by_cases heq : m = n + 1
    · rw [if_pos (heq ▸ hm), heq]
    · rw [if_neg (hlast (n + 1) (by omega) (Nat.le_refl _))]
      exact ih (by omega) fun k hk hkn => hlast k hk (by omega)

/-- An offset is brought down to the end of the characters that fit in front of it. -/
theorem floorCut_min (text : String) (offset : Nat) :
    floorCut text (min offset text.utf8ByteSize) =
      byteSize (Position.charsUpTo offset text.toList) := by
  have hprefix := charsUpTo_prefix offset text.toList
  have hsize : byteSize (Position.charsUpTo offset text.toList) ≤ text.utf8ByteSize := by
    obtain ⟨rest, hrest⟩ := hprefix
    have hadd := congrArg byteSize hrest
    rw [byteSize_append, byteSize_toList] at hadd
    omega
  refine floorCut_eq (isCut_iff.mpr ⟨_, hprefix, rfl⟩)
    (Nat.le_min.mpr ⟨byteSize_charsUpTo_le _ _, hsize⟩) ?_
  intro k hk hkn hcut
  obtain ⟨part, hpart, rfl⟩ := isCut_iff.mp hcut
  obtain ⟨more, hmore⟩ := charsUpTo_longest hpart (Nat.le_min.mp hkn).1
  rw [← hmore, byteSize_append] at hk
  omega

theorem byteSize_reverse (text : List Char) : byteSize text.reverse = byteSize text := by
  simp [byteSize_eq_sum]

theorem sliceFrom_lineStart (text : List Char) :
    sliceFrom (String.ofList text) (lineStart (String.ofList text)) =
      some (String.ofList (text.reverse.takeWhile (· != '\n')).reverse) := by
  have hlast : (text.reverse.takeWhile (· != '\n')).reverse <:+ (String.ofList text).toList := by
    rw [String.toList_ofList]
    conv_rhs => rw [← reverse_reverse text]
    exact reverse_suffix.mpr ( takeWhile_prefix _)
  have hlength := (respects_beq (by decide : IsAscii '\n')).not.length_takeWhile_reverse text
  have hstart : lineStart (String.ofList text) =
      offset (String.ofList text) (text.reverse.takeWhile (· != '\n')).reverse := by
    rw [lineStart, offset, byteSize_reverse, String.toList_ofList]
    exact congrArg _ hlength
  rw [hstart, sliceFrom_offset hlast]

/-- **The line and column of any offset can be told.** -/
theorem lineColumn_eq (text : String) (offset : Nat) :
    lineColumn text offset = some (Position.ofOffset text.toList offset) := by
  obtain ⟨rest, hrest⟩ := charsUpTo_prefix offset text.toList
  have hself : text.toList <:+ text.toList := suffix_rfl
  have hslice := slice_of_eq hself hrest.symm
  have hstop := offset_of_eq hself hrest.symm
  rw [offset_toList, Nat.zero_add] at hstop
  rw [offset_toList, ← hstop] at hslice
  rw [lineColumn, floorCut_min, hslice, Position.ofOffset, ofBefore_eq]
  simp only [Option.bind_eq_bind, Option.bind_some, sliceFrom_lineStart, String.toList_ofList,
    length_reverse]
  rfl

end Xml.Bounds
