import Xml.Text.Chars

/-!
# Reading from the front of a text

A place in a text is the part of the text that is still unread there. Every reader takes such a
rest and hands back what it read together with the rest after it, and comes with the lemma that
the new rest is a suffix of the old one: a reader never leaves the text, and the loops built from
readers end because a suffix is not longer.
-/

namespace Xml.Text

def skipBlanks (text : List Char) : List Char :=
  text.dropWhile isBlank

theorem skipBlanks_suffix (text : List Char) : skipBlanks text <:+ text :=
  List.dropWhile_suffix _

def startsBlank : List Char → Bool
  | [] => false
  | c :: _ => isBlank c

/-- The rest after `mark`, if the text begins with it. -/
def after? (mark text : List Char) : Option (List Char) :=
  if mark.isPrefixOf text then some (text.drop mark.length) else none

variable {text rest mark : List Char}

theorem after?_suffix (h : after? mark text = some rest) : rest <:+ text := by
  unfold after? at h
  split at h
  · cases h; exact List.drop_suffix _ _
  · cases h

theorem after?_eq (h : after? mark text = some rest) : text = mark ++ rest := by
  unfold after? at h
  split at h
  · next hp =>
    obtain ⟨tail, rfl⟩ := List.isPrefixOf_iff_prefix.mp hp
    cases h
    simp
  · cases h

/-- Looks for `mark`, keeping what was passed in reverse. -/
def breakFrom (mark : List Char) : List Char → List Char → Option (List Char × List Char)
  | passed, [] =>
    if mark.isEmpty then some (passed.reverse, []) else none
  | passed, c :: rest =>
    match after? mark (c :: rest) with
    | some tail => some (passed.reverse, tail)
    | none => breakFrom mark (c :: passed) rest

/-- The text before the first `mark` and the rest after it. -/
def breakOn (mark text : List Char) : Option (List Char × List Char) :=
  breakFrom mark [] text

theorem breakFrom_eq {passed before : List Char}
    (h : breakFrom mark passed text = some (before, rest)) :
    passed.reverse ++ text = before ++ mark ++ rest := by
  induction text generalizing passed with
  | nil =>
    unfold breakFrom at h
    split at h
    · next hm => cases h; simp [List.isEmpty_iff.mp hm]
    · cases h
  | cons c tail ih =>
    unfold breakFrom at h
    split at h
    · next found hf => cases h; rw [after?_eq hf]; simp
    · have := ih h; simpa using this

theorem breakOn_eq {before : List Char} (h : breakOn mark text = some (before, rest)) :
    text = before ++ mark ++ rest := by
  simpa using breakFrom_eq h

theorem breakOn_suffix {before : List Char} (h : breakOn mark text = some (before, rest)) :
    rest <:+ text :=
  ⟨before ++ mark, (breakOn_eq h).symm⟩

def readName? : List Char → Option (List Char × List Char)
  | [] => none
  | c :: rest =>
    if startsName c then some (c :: rest.takeWhile continuesName, rest.dropWhile continuesName)
    else none

theorem readName?_eq {name : List Char} (h : readName? text = some (name, rest)) :
    text = name ++ rest := by
  cases text with
  | nil => cases h
  | cons c tail =>
    simp only [readName?] at h
    split at h
    · cases h; simp
    · cases h

theorem readName?_suffix {name : List Char} (h : readName? text = some (name, rest)) :
    rest <:+ text :=
  ⟨name, (readName?_eq h).symm⟩

def isName (text : List Char) : Bool :=
  match readName? text with
  | some (_, rest) => rest.isEmpty
  | none => false

/-- A literal in single or double quotes, and the place where reading goes on: after the literal,
after an opening quote that nothing closes, or where it stood when no quote is there. -/
def readLiteral : List Char → Option (List Char) × List Char
  | [] => (none, [])
  | c :: rest =>
    if c == '"' || c == '\'' then
      match breakOn [c] rest with
      | some (value, tail) => (some value, tail)
      | none => (none, rest)
    else (none, c :: rest)

theorem readLiteral_suffix (text : List Char) : (readLiteral text).2 <:+ text := by
  cases text with
  | nil => exact List.suffix_refl _
  | cons c rest =>
    simp only [readLiteral]
    split
    · split
      · next h => exact (breakOn_suffix h).trans (List.suffix_cons _ _)
      · exact List.suffix_cons _ _
    · exact List.suffix_refl _

def readQuoted? (text : List Char) : Option (List Char × List Char) :=
  match readLiteral text with
  | (some value, rest) => some (value, rest)
  | (none, _) => none

theorem readQuoted?_suffix {value : List Char} (h : readQuoted? text = some (value, rest)) :
    rest <:+ text := by
  unfold readQuoted? at h
  have hs := readLiteral_suffix text
  split at h
  · next hl => cases h; rw [hl] at hs; exact hs
  · cases h

/-- `mark` occurs in the text. -/
def contains (mark text : List Char) : Bool :=
  (breakOn mark text).isSome

end Xml.Text
