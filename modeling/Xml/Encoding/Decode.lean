import Xml.Encoding.Charset
import Xml.Problem

/-!
# From bytes to text

The encoding of a document is found in this order: a byte order mark, the byte pattern of a `<` in
UTF-16, the encoding named in the XML declaration, a hint from outside, and UTF-8 at last.
-/

namespace Xml.Encoding

open Text

/-- What the first two bytes say. -/
inductive Detected where
  | utf8
  | utf16 (order : ByteOrder)
  deriving DecidableEq, Repr

/-- Tells UTF-16 by a byte order mark or by a `<` beside a zero byte. -/
def detect : List UInt8 → Detected
  | 0xFF :: 0xFE :: _ => .utf16 .little
  | 0xFE :: 0xFF :: _ => .utf16 .big
  | 0x00 :: 0x3C :: _ => .utf16 .big
  | 0x3C :: 0x00 :: _ => .utf16 .little
  | _ => .utf8

/-- White space as labels and declarations are trimmed of it, which is that of Unicode. -/
def isSpace (c : Char) : Bool :=
  let code := c.toNat
  (0x9 ≤ code && code ≤ 0xD) || code == 0x20 || code == 0x85 || code == 0xA0 || code == 0x1680
    || (0x2000 ≤ code && code ≤ 0x200A) || code == 0x2028 || code == 0x2029 || code == 0x202F
    || code == 0x205F || code == 0x3000

def trimLeft (text : List Char) : List Char :=
  text.dropWhile isSpace

def trim (text : List Char) : List Char :=
  (trimLeft (trimLeft text).reverse).reverse

/-- A label in small letters, without the white space around it. -/
def labelKey (label : String) : String :=
  String.ofList (asciiLower (trim label.toList))

def errorAfter (problem : Problem) (before : List Char) : ParseError :=
  ⟨problem, Position.ofBefore before⟩

/-- Decodes UTF-8, reporting where it breaks off. -/
def decodeAsUtf8 (bytes : List UInt8) : Except ParseError (List Char) :=
  (decodeUtf8 bytes).mapError (errorAfter .notUtf8)

/-- Decodes a character set. A failure is reported at the start, but for UTF-8. -/
def Charset.decode (charset : Charset) (bytes : List UInt8) : Except ParseError (List Char) :=
  if charset.name == "UTF-8" then decodeAsUtf8 bytes
  else
    match charset.decode? bytes with
    | some text => .ok text
    | none => .error ⟨.notEncodedAs charset.name, Position.first⟩

/-- Decodes bytes in the encoding that a label names. True ASCII and Latin-1 are told apart from the
sets that replace them on the web. -/
def decodeLabeled (charsets : Charsets) (label : String) (bytes : List UInt8) :
    Except ParseError (List Char) :=
  match labelKey label with
  | "utf-8" | "utf8" => decodeAsUtf8 bytes
  | "us-ascii" | "ascii" =>
    if bytes.all (· < 0x80) then .ok (bytes.map latin1Char)
    else .error (errorAfter .notAscii ((bytes.takeWhile (· < 0x80)).map latin1Char))
  | "iso-8859-1" | "iso_8859-1" | "latin1" | "l1" => .ok (bytes.map latin1Char)
  | "utf-16" => (Charset.utf16 .little).decode bytes
  | key =>
    match charsets key with
    | some charset => charset.decode bytes
    | none => .error ⟨.unknownEncoding label, Position.first⟩

/-- The value of the pseudo-attribute `encoding` in the text of an XML declaration. -/
def encodingIn? (declaration : List Char) : Option String :=
  match breakOn "encoding".toList declaration with
  | none => none
  | some (_, rest) =>
    match trimLeft rest with
    | '=' :: rest => (readQuoted? (trimLeft rest)).map fun (value, _) => String.ofList value
    | _ => none

/-- The encoding that an XML declaration in ASCII names. The declaration has to end within the
first 512 bytes. -/
def declared? (bytes : List UInt8) : Option String :=
  let chars := (bytes.take 512).map latin1Char
  match after? "<?xml".toList chars with
  | none => none
  | some rest =>
    match breakOn "?>".toList rest with
    | none => none
    | some (inside, _) =>
      match decodeUtf8 ((bytes.drop 5).take inside.length) with
      | .ok declaration => encodingIn? declaration
      | .error _ => none

/-- The text of a document. The hint counts only where neither the bytes nor the document's own
declaration settle the encoding. -/
def decode (bytes : List UInt8) (hint : Option String) (charsets : Charsets := .western) :
    Except ParseError (List Char) :=
  match bytes with
  | 0xEF :: 0xBB :: 0xBF :: rest => decodeAsUtf8 rest
  | 0xFF :: 0xFE :: rest => (Charset.utf16 .little).decode rest
  | 0xFE :: 0xFF :: rest => (Charset.utf16 .big).decode rest
  | _ =>
    match detect bytes with
    | .utf16 order => (Charset.utf16 order).decode bytes
    | .utf8 =>
      match (declared? bytes).or hint with
      | none => decodeAsUtf8 bytes
      | some label => decodeLabeled charsets label bytes

end Xml.Encoding
