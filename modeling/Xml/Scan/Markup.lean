import Xml.Entity.Declarations
import Xml.Problem

/-!
# Markup other than tags

References, comments, CDATA sections, processing instructions, the document type declaration and
the XML declaration, each read from behind the characters that open it, without any state.
-/

namespace Xml.Scan

open Text

/-- What a `&` in content stands for. -/
inductive Reference where
  /-- A character reference, with the character if it names one. -/
  | char (c : Option Char)
  /-- An entity reference. -/
  | entity (name : List Char)
  /-- No reference: the `&` stands for itself. -/
  | plain

/-- Reads a reference from behind its `&`. A character reference that names nothing reaches to the
next `;`, or is passed up to its `#` when there is none. -/
def readReference (text : List Char) : Reference × List Char :=
  match text with
  | '#' :: inside =>
    match breakOn [';'] inside with
    | some (body, rest) => (.char (charRef? body), rest)
    | none => (.char none, inside)
  | _ =>
    match readName? text with
    | some (name, ';' :: rest) => (.entity name, rest)
    | _ => (.plain, text)

theorem readReference_suffix (text : List Char) : (readReference text).2 <:+ text := by
  simp only [readReference]
  split
  · split
    · next h => exact (breakOn_suffix h).trans (List.suffix_cons _ _)
    · exact List.suffix_cons _ _
  · split
    · next h => exact (List.suffix_cons _ _).trans (readName?_suffix h)
    · exact List.suffix_refl _

/-- A stretch of text that ends with `mark`. -/
def readUpTo (mark : String) (problem : Problem) (text : List Char) :
    Except Problem (List Char × List Char) :=
  match breakOn mark.toList text with
  | some found => .ok found
  | none => .error problem

variable {text rest : List Char}

theorem readUpTo_suffix {mark : String} {problem : Problem} {inside : List Char}
    (h : readUpTo mark problem text = .ok (inside, rest)) : rest <:+ text := by
  simp only [readUpTo] at h
  split at h
  · next hb => cases h; exact breakOn_suffix hb
  · cases h

def readComment (text : List Char) : Except Problem (List Char × List Char) :=
  readUpTo "-->" .unfinishedComment text

def readCData (text : List Char) : Except Problem (List Char × List Char) :=
  readUpTo "]]>" .unfinishedCData text

def readInstruction (text : List Char) : Except Problem ((String × List Char) × List Char) :=
  match readName? text with
  | none => .error .instructionWithoutTarget
  | some (target, rest) =>
    if asciiLower target == "xml".toList then .error .misplacedXmlDeclaration
    else
      match breakOn "?>".toList (skipBlanks rest) with
      | none => .error (.unfinishedInstruction (String.ofList target))
      | some (data, tail) =>
        if !data.isEmpty && !startsBlank rest then
          .error (.instructionSpace (String.ofList target))
        else .ok ((String.ofList target, data), tail)

theorem readInstruction_suffix {found : String × List Char}
    (h : readInstruction text = .ok (found, rest)) : rest <:+ text := by
  simp only [readInstruction] at h
  split at h
  · cases h
  · next hn =>
    split at h
    · cases h
    · split at h
      · cases h
      · next hb =>
        split at h
        · cases h
        · cases h
          exact (breakOn_suffix hb).trans ((skipBlanks_suffix _).trans (readName?_suffix hn))

def readExternalId (text : List Char) :
    Except Problem ((Option String × Option String) × List Char) :=
  match after? "SYSTEM".toList text with
  | some rest =>
    match readQuoted? (skipBlanks rest) with
    | some (system, rest) => .ok ((none, some (String.ofList system)), rest)
    | none => .error .systemIdMissing
  | none =>
    match after? "PUBLIC".toList text with
    | some rest =>
      match readQuoted? (skipBlanks rest) with
      | some (publicId, rest) =>
        match readQuoted? (skipBlanks rest) with
        | some (system, rest) =>
          .ok ((some (String.ofList publicId), some (String.ofList system)), rest)
        | none => .error .systemIdMissing
      | none => .error .publicIdMissing
    | none => .ok ((none, none), text)

theorem readExternalId_suffix {found : Option String × Option String}
    (h : readExternalId text = .ok (found, rest)) : rest <:+ text := by
  simp only [readExternalId] at h
  split at h
  · next ha =>
    split at h
    · next hq =>
      cases h
      exact (readQuoted?_suffix hq).trans ((skipBlanks_suffix _).trans (after?_suffix ha))
    · cases h
  · split at h
    · next ha =>
      split at h
      · next hp =>
        split at h
        · next hq =>
          cases h
          exact (readQuoted?_suffix hq).trans ((skipBlanks_suffix _).trans
            ((readQuoted?_suffix hp).trans ((skipBlanks_suffix _).trans (after?_suffix ha))))
        · cases h
      · cases h
    · cases h; exact List.suffix_refl _

def readSubset (text : List Char) : Except Problem (Option (List Char) × List Char) :=
  match text with
  | '[' :: inside =>
    match Declarations.splitSubset? inside with
    | some (subset, rest) => .ok (some subset, skipBlanks rest)
    | none => .error .unfinishedSubset
  | _ => .ok (none, text)

/-- The document type declaration behind its keyword. -/
def readDoctype (text : List Char) : Except Problem (Doctype × List Char) :=
  if startsBlank text then
    match readName? (skipBlanks text) with
    | none => .error .doctypeWithoutName
    | some (name, rest) =>
      match readExternalId (skipBlanks rest) with
      | .error problem => .error problem
      | .ok ((publicId, systemId), rest) =>
        match readSubset (skipBlanks rest) with
        | .error problem => .error problem
        | .ok (subset, rest) =>
          match rest with
          | '>' :: rest =>
            .ok (⟨String.ofList name, publicId, systemId, subset.map String.ofList⟩, rest)
          | _ => .error .unfinishedDoctype
  else .error .doctypeSpace

theorem readSubset_suffix {subset : Option (List Char)} (h : readSubset text = .ok (subset, rest)) :
    rest <:+ text := by
  simp only [readSubset] at h
  split at h
  · split at h
    · next hs =>
      cases h
      exact (skipBlanks_suffix _).trans
        ((Declarations.splitSubset?_suffix hs).trans (List.suffix_cons _ _))
    · cases h
  · cases h; exact List.suffix_refl _

theorem readDoctype_suffix {doctype : Doctype} (h : readDoctype text = .ok (doctype, rest)) :
    rest <:+ text := by
  simp only [readDoctype] at h
  split at h
  · split at h
    · cases h
    · next hn =>
      split at h
      · cases h
      · next he =>
        split at h
        · cases h
        · next hs =>
          split at h
          · cases h
            exact (List.suffix_cons _ _).trans ((readSubset_suffix hs).trans
              ((skipBlanks_suffix _).trans ((readExternalId_suffix he).trans
                ((skipBlanks_suffix _).trans ((readName?_suffix hn).trans
                  (skipBlanks_suffix _))))))
          · cases h
  · cases h

/-- The pseudo-attributes of an XML declaration. -/
structure XmlDeclaration where
  version : Option String := none
  encoding : Option String := none
  standalone : Option String := none

/-- Sets a pseudo-attribute; a later value replaces an earlier one. -/
def XmlDeclaration.set? (d : XmlDeclaration) (key value : String) : Option XmlDeclaration :=
  match key with
  | "version" => some { d with version := some value }
  | "encoding" => some { d with encoding := some value }
  | "standalone" => some { d with standalone := some value }
  | _ => none

/-- One `key = "value"` of an XML declaration. -/
def readPseudoAttribute? (text : List Char) : Option (String × String × List Char) :=
  match readName? text with
  | none => none
  | some (key, rest) =>
    match skipBlanks rest with
    | '=' :: rest =>
      (readQuoted? (skipBlanks rest)).map fun (value, rest) =>
        (String.ofList key, String.ofList value, rest)
    | _ => none

theorem readPseudoAttribute?_length {key value : String}
    (h : readPseudoAttribute? text = some (key, value, rest)) : rest.length < text.length := by
  simp only [readPseudoAttribute?] at h
  split at h
  · cases h
  · next hn =>
    split at h
    · next hs =>
      obtain ⟨⟨v, r⟩, hq, he⟩ := Option.map_eq_some_iff.mp h
      cases he
      have h1 := ((readQuoted?_suffix hq).trans (skipBlanks_suffix _)).length_le
      have h2 := ((skipBlanks_suffix _).trans (readName?_suffix hn)).length_le
      rw [hs] at h2
      simp only [List.length_cons] at h2
      show r.length < text.length
      omega
    · cases h

/-- The pseudo-attributes between `<?xml` and `?>`. -/
def readPseudoAttributes? (d : XmlDeclaration) (text : List Char) : Option XmlDeclaration :=
  match hs : skipBlanks text with
  | [] => some d
  | c :: rest =>
    match h : readPseudoAttribute? (c :: rest) with
    | none => none
    | some (key, value, tail) =>
      match d.set? key value with
      | none => none
      | some d =>
        have := readPseudoAttribute?_length h
        have := (skipBlanks_suffix text).length_le
        have _hl := congrArg List.length hs
        readPseudoAttributes? d tail
termination_by text.length

/-- The XML declaration a text may begin with: `<?xml` with white space behind it. -/
def xmlDeclaration? (text : List Char) : Option (List Char) :=
  match after? "<?xml".toList text with
  | some rest => if startsBlank rest then some rest else none
  | none => none

/-- The XML declaration behind its `<?xml`. -/
def readXmlDeclaration (text : List Char) : Except Problem (XmlDeclaration × List Char) :=
  match breakOn "?>".toList text with
  | none => .error .badXmlDeclaration
  | some (body, rest) =>
    match readPseudoAttributes? {} body with
    | some d => .ok (d, rest)
    | none => .error .badXmlDeclaration

end Xml.Scan
