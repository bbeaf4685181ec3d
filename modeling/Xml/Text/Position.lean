import Xml.Text.Chars

/-!
# Lines and columns

Problems are reported by line and column, both counted from one; a column counts characters.
-/

namespace Xml.Text

/-- A place in a text as a reader counts it. -/
structure Position where
  line : Nat
  column : Nat
  deriving DecidableEq, Repr, Inhabited

namespace Position

def first : Position := ⟨1, 1⟩

def next (p : Position) (c : Char) : Position :=
  if c == '\n' then ⟨p.line + 1, 1⟩ else ⟨p.line, p.column + 1⟩

/-- The place after the characters `before`. -/
def ofBefore (before : List Char) : Position :=
  before.foldl next first

/-- The place in `text` from which `rest` is still unread. -/
def ofRest (text rest : List Char) : Position :=
  ofBefore (text.take (text.length - rest.length))

/-- The characters of `text` that end at or before byte `offset`. -/
def charsUpTo : Nat → List Char → List Char
  | _, [] => []
  | offset, c :: rest =>
    if c.utf8Size ≤ offset then c :: charsUpTo (offset - c.utf8Size) rest else []

/-- The place of a byte offset. An offset inside a character stands for that character's start,
one past the end for the end. -/
def ofOffset (text : List Char) (offset : Nat) : Position :=
  ofBefore (charsUpTo offset text)

end Position

end Xml.Text
