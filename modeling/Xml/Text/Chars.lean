/-!
# Characters of markup

The character classes the markup grammar is written in, the search for characters a document may
not hold, and the normalization of line ends.

Names are deliberately generous: every code point from U+0080 on may stand anywhere in a name, so
the classes are decided on plain numbers and serve characters and UTF-8 bytes alike.
-/

namespace Xml.Text

/-- Space, tab, line feed and carriage return, the white space of markup. -/
def isBlank (c : Char) : Bool :=
  c == ' ' || c == '\t' || c == '\n' || c == '\r'

def allBlank (text : List Char) : Bool :=
  text.all isBlank

/-- A code point that can begin a name: an ASCII letter, `_`, `:` or anything outside ASCII. -/
def isNameStart (code : Nat) : Bool :=
  (0x41 ≤ code && code ≤ 0x5A) || (0x61 ≤ code && code ≤ 0x7A) || code == 0x5F || code == 0x3A
    || 0x80 ≤ code

/-- A code point that can continue a name: one that can begin it, a digit, `-` or `.`. -/
def isNameCode (code : Nat) : Bool :=
  isNameStart code || (0x30 ≤ code && code ≤ 0x39) || code == 0x2D || code == 0x2E

def startsName (c : Char) : Bool :=
  isNameStart c.toNat

def continuesName (c : Char) : Bool :=
  isNameCode c.toNat

/-- The code points a document may hold: tab, line feed, carriage return and everything from the
space on, without the surrogates and U+FFFE, U+FFFF. -/
def isXmlChar (code : Nat) : Bool :=
  code == 0x9 || code == 0xA || code == 0xD || (0x20 ≤ code && code ≤ 0xD7FF)
    || (0xE000 ≤ code && code ≤ 0xFFFD) || (0x10000 ≤ code && code ≤ 0x10FFFF)

/-- A byte that may belong to a character a document cannot hold: a control character, or the
first byte of U+F000 to U+FFFF. -/
def isSuspectByte (byte : UInt8) : Bool :=
  (byte < 0x20 && byte != 0x9 && byte != 0xA && byte != 0xD) || byte == 0xEF

/-- Some byte of the text's UTF-8 form is suspect. -/
def isSuspect (text : List Char) : Bool :=
  text.any fun c => (String.utf8EncodeChar c).any isSuspectByte

/-- The first character a document may not hold. The bytes are looked at first, since nearly every
text passes that cheaper test. -/
def findInvalid? (text : List Char) : Option Char :=
  if isSuspect text then text.find? fun c => !isXmlChar c.toNat else none

/-- Line ends become single line feeds: a carriage return goes when a line feed follows it and
turns into one otherwise. -/
def normalizeNewlines : List Char → List Char
  | [] => []
  | '\r' :: '\n' :: rest => '\n' :: normalizeNewlines rest
  | c :: rest => (if c == '\r' then '\n' else c) :: normalizeNewlines rest

/-- A character inside an attribute value: tab, line feed and carriage return count as a space. -/
def normalizeBlank (c : Char) : Char :=
  if c == '\t' || c == '\n' || c == '\r' then ' ' else c

/-- The text holds a character that `normalizeBlank` changes. -/
def needsNormalization (text : List Char) : Bool :=
  text.any fun c => c == '\t' || c == '\n' || c == '\r'

/-- The number of bytes of the text's UTF-8 form. -/
def byteSize (text : List Char) : Nat :=
  text.foldl (fun size c => size + c.utf8Size) 0

/-- Upper case ASCII letters become lower case, all else stays. -/
def asciiLower (text : List Char) : List Char :=
  text.map Char.toLower

end Xml.Text
