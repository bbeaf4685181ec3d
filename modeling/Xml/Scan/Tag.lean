import Xml.Text.Reading
import Xml.Problem

/-!
# Tags

The shape of start and end tags, read without any state. A start tag gives its attributes as they
are written, each with its place, and how the tag ends; when it breaks off, the attributes before
that point are still given.

## Termination

Every attribute read leaves a shorter rest.
-/

namespace Xml.Scan

open Text

structure RawAttribute where
  /-- The text from the attribute's name on. -/
  place : List Char
  name : String
  /-- The text between the quotes. -/
  raw : List Char

/-- How a start tag ends. -/
inductive TagEnd where
  /-- With `>`: content follows. -/
  | opened (rest : List Char)
  /-- With `/>`. -/
  | closed (rest : List Char)
  /-- Not at all: the text ends inside the tag. -/
  | unfinished
  /-- It breaks off at a place. -/
  | broken (problem : Problem) (place : List Char)

/-- An attribute's name, its value as written, and the rest. -/
def readAttribute (text : List Char) : Except Problem (String × List Char × List Char) :=
  match readName? text with
  | none => .error .badAttribute
  | some (name, rest) =>
    match skipBlanks rest with
    | '=' :: rest =>
      match readQuoted? (skipBlanks rest) with
      | some (raw, rest) => .ok (String.ofList name, raw, rest)
      | none => .error .attributeNotQuoted
    | _ => .error (.attributeWithoutValue (String.ofList name))

theorem readAttribute_suffix {text raw rest : List Char} {name : String}
    (h : readAttribute text = .ok (name, raw, rest)) :
    rest <:+ text ∧ rest.length < text.length := by
  simp only [readAttribute] at h
  split at h
  · cases h
  · next hn =>
    split at h
    · next hs =>
      split at h
      · next hq =>
        cases h
        have h1 := (readQuoted?_suffix hq).trans (skipBlanks_suffix _)
        have h3 := (skipBlanks_suffix _).trans (readName?_suffix hn)
        rw [hs] at h3
        have h4 := h3.length_le
        have h5 := h1.length_le
        simp only [List.length_cons] at h4
        exact ⟨h1.trans ((List.suffix_cons _ _).trans h3), by omega⟩
      · cases h
    · cases h

/-- The attributes of a start tag, read from behind its name, and the tag's end. An attribute needs
white space before it. -/
def readAttributes (text : List Char) : List RawAttribute × TagEnd :=
  match hs : skipBlanks text with
  | [] => ([], .unfinished)
  | '>' :: rest => ([], .opened rest)
  | '/' :: '>' :: rest => ([], .closed rest)
  | c :: rest =>
    if startsName c && startsBlank text then
      match h : readAttribute (c :: rest) with
      | .error problem => ([], .broken problem (c :: rest))
      | .ok (name, raw, tail) =>
        have := (readAttribute_suffix h).2
        have := (skipBlanks_suffix text).length_le
        have _hl := congrArg List.length hs
        let (attributes, tagEnd) := readAttributes tail
        (⟨c :: rest, name, raw⟩ :: attributes, tagEnd)
    else ([], .broken .badAttribute (c :: rest))
termination_by text.length

/-- The rest behind a tag that ends properly is a suffix of the text. -/
def TagEnd.Within (text : List Char) : TagEnd → Prop
  | .opened rest => rest <:+ text
  | .closed rest => rest <:+ text
  | _ => True

theorem TagEnd.Within.mono {text longer : List Char} {tagEnd : TagEnd} (h : tagEnd.Within text)
    (hs : text <:+ longer) : tagEnd.Within longer := by
  cases tagEnd with
  | opened rest => exact List.IsSuffix.trans h hs
  | closed rest => exact List.IsSuffix.trans h hs
  | unfinished => trivial
  | broken problem place => trivial

theorem readAttributes_within (text : List Char) : (readAttributes text).2.Within text := by
  fun_induction readAttributes text with
  | case1 => trivial
  | case2 text rest hs =>
    have := skipBlanks_suffix text
    rw [hs] at this
    exact (List.suffix_cons _ _).trans this
  | case3 text rest hs =>
    have := skipBlanks_suffix text
    rw [hs] at this
    exact (List.suffix_cons _ _).trans ((List.suffix_cons _ _).trans this)
  | case4 => trivial
  | case5 text c rest _ _ hs _ name raw tail h _ _ _ attributes tagEnd hr ih =>
    have hb := skipBlanks_suffix text
    rw [hs] at hb
    rw [hr] at ih
    exact ih.mono ((readAttribute_suffix h).1.trans hb)
  | case6 => trivial

/-- The name of an end tag, read from behind its `</`, and the rest behind its `>`. -/
def readEndTag (text : List Char) : Except Problem (String × List Char) :=
  match readName? text with
  | none => .error .endTagWithoutName
  | some (name, rest) =>
    match skipBlanks rest with
    | '>' :: rest => .ok (String.ofList name, rest)
    | _ => .error (.unfinishedEndTag (String.ofList name))

theorem readEndTag_suffix {text rest : List Char} {name : String}
    (h : readEndTag text = .ok (name, rest)) : rest <:+ text := by
  simp only [readEndTag] at h
  split at h
  · cases h
  · next hn =>
    split at h
    · next hs =>
      cases h
      have := (skipBlanks_suffix _).trans (readName?_suffix hn)
      rw [hs] at this
      exact (List.suffix_cons _ _).trans this
    · cases h

end Xml.Scan
