import Xml.Text.Reading

/-!
# A cursor with byte offsets

For callers that step through a text by hand and address it by bytes. The position is any number:
moving forward stops at the end of the text, setting the position does not.
-/

namespace Xml.Text

/-- A text and a position in it, counted in bytes of its UTF-8 form. -/
structure Cursor where
  text : String
  position : Nat := 0

namespace Cursor

def bytes (c : Cursor) : List UInt8 :=
  c.text.toUTF8.toList

def left (c : Cursor) : List UInt8 :=
  c.bytes.drop c.position

/-- Bytes read as text; bytes that are no text give the empty one. -/
def textOf (bytes : List UInt8) : String :=
  (String.fromUTF8? ⟨bytes.toArray⟩).getD ""

def atEnd (c : Cursor) : Bool :=
  c.text.utf8ByteSize ≤ c.position

def rest (c : Cursor) : String :=
  textOf c.left

def slice (c : Cursor) (start stop : Nat) : String :=
  textOf ((c.bytes.take stop).drop start)

/-- The byte `n` places after the position. -/
def peekAt (c : Cursor) (n : Nat) : Option UInt8 :=
  c.bytes[c.position + n]?

def peek (c : Cursor) : Option UInt8 :=
  c.peekAt 0

/-- Moves `n` bytes on, at most to the end. -/
def advance (c : Cursor) (n : Nat) : Cursor :=
  { c with position := min (c.position + n) c.text.utf8ByteSize }

def setPosition (c : Cursor) (position : Nat) : Cursor :=
  { c with position := position }

def isBlankByte (byte : UInt8) : Bool :=
  byte == 0x20 || byte == 0x9 || byte == 0xA || byte == 0xD

/-- Passes white space, and tells whether there was any. -/
def skipBlanks (c : Cursor) : Bool × Cursor :=
  let n := (c.left.takeWhile isBlankByte).length
  (n != 0, c.setPosition (c.position + n))

/-- The offset of the first byte from the position on that satisfies `p`. -/
def find? (c : Cursor) (p : UInt8 → Bool) : Option Nat :=
  (c.left.findIdx? p).map (c.position + ·)

/-- The offset of the next `<` or `&`. -/
def findTextBoundary? (c : Cursor) : Option Nat :=
  c.find? fun byte => byte == 0x3C || byte == 0x26

def findByte? (c : Cursor) (byte : UInt8) : Option Nat :=
  c.find? (· == byte)

/-- How far into `bytes` the first `mark` stands, with `passed` bytes before them. -/
def offsetOf (mark : List UInt8) : Nat → List UInt8 → Option Nat
  | passed, [] => if mark.isEmpty then some passed else none
  | passed, byte :: rest =>
    if mark.isPrefixOf (byte :: rest) then some passed else offsetOf mark (passed + 1) rest

/-- The offset of the next `mark`. -/
def findText? (c : Cursor) (mark : String) : Option Nat :=
  offsetOf mark.toUTF8.toList c.position c.left

/-- `mark` stands at the position. -/
def startsWith (c : Cursor) (mark : String) : Bool :=
  mark.toUTF8.toList.isPrefixOf c.left

def readName (c : Cursor) : Option String × Cursor :=
  match c.left with
  | [] => (none, c)
  | byte :: rest =>
    if isNameStart byte.toNat then
      let name := byte :: rest.takeWhile fun b => isNameCode b.toNat
      (some (textOf name), c.setPosition (c.position + name.length))
    else (none, c)

/-- Reads a literal in quotes and moves past it; when nothing closes the opening quote the cursor
stays behind that quote. -/
def readQuoted (c : Cursor) : Option String × Cursor :=
  match c.peek with
  | none => (none, c)
  | some quote =>
    if quote == 0x22 || quote == 0x27 then
      let inside := c.advance 1
      match inside.findByte? quote with
      | some stop => (some (inside.slice inside.position stop), inside.setPosition (stop + 1))
      | none => (none, inside)
    else (none, c)

end Cursor

end Xml.Text
