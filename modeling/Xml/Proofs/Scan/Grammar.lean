import Mathlib.Data.Nat.Digits.Defs
import Xml.Proofs.Text.Readers

/-!
# The grammar of documents without a document type

What a well-formed document is, said by rules that build texts from parts, without a place to read
at, a look ahead or a state. Names and white space are those of `Xml.Text`. Where a rule speaks of a
terminator, it says that the part in front of it does not contain it.

Content alternates between character data, which may be empty, and pieces of markup; so what stands
between two pieces is one stretch of character data, and a `]]>` cannot hide at a seam.
-/

namespace Xml.Grammar

open Text

/-! ## Characters and references -/

/-- Text of characters a document may hold. -/
def XmlChars (text : List Char) : Prop :=
  ∀ c ∈ text, isXmlChar c.toNat = true

/-- The number that digits write in a base, the first digit being the highest. -/
def Numeral (base : Nat) (digit? : Char → Option Nat) (digits : List Char) (n : Nat) : Prop :=
  digits ≠ [] ∧ ∃ values : List Nat, digits.map digit? = values.map some ∧
    n = Nat.ofDigits base values.reverse

/-- The references every document can use, and what they stand for. -/
def predefinedReferences : List (List Char × Char) :=
  [("lt".toList, '<'), ("gt".toList, '>'), ("amp".toList, '&'), ("quot".toList, '"'),
    ("apos".toList, '\'')]

/-- A reference, without its `&` and its `;`, and the character it stands for. -/
inductive Reference : List Char → Char → Prop where
  | predefined {name : List Char} {c : Char} (h : (name, c) ∈ predefinedReferences) :
      Reference name c
  | decimal {digits : List Char} {c : Char} (h : Numeral 10 decimalDigit? digits c.toNat)
      (hc : isXmlChar c.toNat = true) : Reference ('#' :: digits) c
  | hexadecimal {digits : List Char} {c : Char} (h : Numeral 16 hexDigit? digits c.toNat)
      (hc : isXmlChar c.toNat = true) : Reference ('#' :: 'x' :: digits) c

/-- A value between two quotes that it does not contain. -/
inductive Literal (value : List Char) : List Char → Prop where
  | mk {q : Char} (hq : q = '"' ∨ q = '\'') (h : q ∉ value) : Literal value (q :: value ++ [q])

/-! ## Tags -/

/-- The text of an attribute value and what it means: references are replaced, white space counts
as spaces. -/
inductive AttributeText : List Char → List Char → Prop where
  | nil : AttributeText [] []
  | char {c : Char} {text value : List Char} (hlt : c ≠ '<') (hamp : c ≠ '&')
      (hc : isXmlChar c.toNat = true) (rest : AttributeText text value) :
      AttributeText (c :: text) (normalizeBlank c :: value)
  | reference {body text value : List Char} {c : Char} (h : Reference body c)
      (rest : AttributeText text value) :
      AttributeText ('&' :: body ++ ';' :: text) (c :: value)

/-- Attributes as they stand in a tag, each with white space in front of it: their names and the
texts between their quotes. -/
inductive Attributes : List (List Char × List Char) → List Char → Prop where
  | nil : Attributes [] []
  | cons {space name before after value literal text : List Char}
      {more : List (List Char × List Char)} (hs : IsSpace space) (hne : space ≠ [])
      (hn : IsName name) (hb : IsSpace before) (ha : IsSpace after) (hv : Literal value literal)
      (rest : Attributes more text) :
      Attributes ((name, value) :: more)
        (space ++ name ++ before ++ '=' :: after ++ literal ++ text)

/-- A tag without its `<` and its end: a name, attributes with different names and proper values,
white space. -/
inductive TagBody (name : List Char) (attributes : List (List Char × List Char)) :
    List Char → Prop where
  | mk {text space : List Char} (hn : IsName name) (ha : Attributes attributes text)
      (hd : (attributes.map Prod.fst).Nodup)
      (hv : ∀ a ∈ attributes, ∃ value, AttributeText a.2 value) (hs : IsSpace space) :
      TagBody name attributes (name ++ text ++ space)

/-! ## Markup without content -/

/-- A comment or an instruction. -/
inductive Aside : List Char → Prop where
  | comment {text : List Char} (hc : XmlChars text) (hh : ¬ "--".toList <:+: text)
      (hl : text.getLast? ≠ some '-') : Aside ("<!--".toList ++ text ++ "-->".toList)
  | instruction {target data : List Char} (hn : IsName target)
      (hx : asciiLower target ≠ "xml".toList) (hs : data = [] ∨ startsBlank data = true)
      (he : ¬ "?>".toList <:+: data) : Aside ("<?".toList ++ target ++ data ++ "?>".toList)

/-- Character data between two pieces of markup, possibly none. -/
def CharData (text : List Char) : Prop :=
  XmlChars text ∧ '<' ∉ text ∧ '&' ∉ text ∧ ¬ "]]>".toList <:+: text

/-- A piece of content other than an element and character data. -/
inductive Piece : List Char → Prop where
  | aside {text : List Char} (h : Aside text) : Piece text
  | cdata {text : List Char} (hc : XmlChars text) (he : ¬ "]]>".toList <:+: text) :
      Piece ("<![CDATA[".toList ++ text ++ "]]>".toList)
  | reference {body : List Char} {c : Char} (h : Reference body c) : Piece ('&' :: body ++ [';'])

/-! ## Elements -/

mutual

inductive Element : List Char → Prop where
  | empty {name body : List Char} {attributes : List (List Char × List Char)}
      (h : TagBody name attributes body) : Element ('<' :: body ++ "/>".toList)
  | nested {name body content space : List Char} {attributes : List (List Char × List Char)}
      (h : TagBody name attributes body) (hc : Content content) (hs : IsSpace space) :
      Element ('<' :: body ++ '>' :: content ++ "</".toList ++ name ++ space ++ ['>'])

/-- What stands between the tags of an element. -/
inductive Content : List Char → Prop where
  | text {text : List Char} (h : CharData text) : Content text
  | piece {text piece more : List Char} (h : CharData text) (hp : Piece piece)
      (hm : Content more) : Content (text ++ piece ++ more)
  | element {text element more : List Char} (h : CharData text) (he : Element element)
      (hm : Content more) : Content (text ++ element ++ more)

end

/-! ## Documents -/

/-- What may stand beside the document element: white space, comments and instructions. -/
inductive Misc : List Char → Prop where
  | nil : Misc []
  | blank {c : Char} {more : List Char} (h : isBlank c = true) (hm : Misc more) : Misc (c :: more)
  | aside {text more : List Char} (h : Aside text) (hm : Misc more) : Misc (text ++ more)

def declarationKeys : List (List Char) :=
  ["version".toList, "encoding".toList, "standalone".toList]

/-- The pseudo-attributes of an XML declaration, with white space wherever it is wanted. -/
inductive PseudoAttributes : List (List Char × List Char) → List Char → Prop where
  | nil {space : List Char} (hs : IsSpace space) : PseudoAttributes [] space
  | cons {space key before after value literal text : List Char}
      {more : List (List Char × List Char)} (hs : IsSpace space)
      (hk : key ∈ declarationKeys) (hb : IsSpace before) (ha : IsSpace after) (hv : Literal value literal)
      (rest : PseudoAttributes more text) :
      PseudoAttributes ((key, value) :: more)
        (space ++ key ++ before ++ '=' :: after ++ literal ++ text)

inductive Declaration : List Char → Prop where
  | mk {body : List Char} {items : List (List Char × List Char)} (hs : startsBlank body = true)
      (he : ¬ "?>".toList <:+: body) (hi : PseudoAttributes items body)
      (hv : "version".toList ∈ items.map Prod.fst) :
      Declaration ("<?xml".toList ++ body ++ "?>".toList)

/-- **A document**: an XML declaration if there is one, one element, and beside it only white
space, comments and instructions. -/
inductive Document : List Char → Prop where
  | mk {declaration before element after : List Char}
      (hd : declaration = [] ∨ Declaration declaration) (hb : Misc before) (he : Element element)
      (ha : Misc after) : Document (declaration ++ before ++ element ++ after)

end Xml.Grammar
