import Xml.Encoding.Utf16
import Xml.Encoding.Utf8

/-!
# Character sets

Besides the encodings that a document can always be in, a label may name a character set from
outside. What sets there are is handed in with the files; `Charsets.western` are some of those that
the web knows.
-/

namespace Xml.Encoding

/-- A character set: its name, and the text of bytes if they are proper. -/
structure Charset where
  name : String
  decode? : List UInt8 → Option (List Char)

/-- The character set that a label names, in small letters and without white space around it. -/
abbrev Charsets := String → Option Charset

/-- The character whose code point the byte is. -/
def latin1Char (byte : UInt8) : Char :=
  Char.ofNat byte.toNat

/-- The code points of the bytes 80 to 9F in windows-1252. -/
def windows1252High : List Nat :=
  [0x20AC, 0x81, 0x201A, 0x0192, 0x201E, 0x2026, 0x2020, 0x2021, 0x02C6, 0x2030, 0x0160, 0x2039,
   0x0152, 0x8D, 0x017D, 0x8F, 0x90, 0x2018, 0x2019, 0x201C, 0x201D, 0x2022, 0x2013, 0x2014,
   0x02DC, 0x2122, 0x0161, 0x203A, 0x0153, 0x9D, 0x017E, 0x0178]

def windows1252Char (byte : UInt8) : Char :=
  let code := byte.toNat
  Char.ofNat (if 0x80 ≤ code ∧ code < 0xA0 then windows1252High.getD (code - 0x80) code else code)

namespace Charset

def utf8 : Charset where
  name := "UTF-8"
  decode? bytes := (decodeUtf8 bytes).toOption

def utf16 (order : ByteOrder) : Charset where
  name := match order with
    | .little => "UTF-16LE"
    | .big => "UTF-16BE"
  decode? := decodeUtf16 order

def windows1252 : Charset where
  name := "windows-1252"
  decode? bytes := some (bytes.map windows1252Char)

/-- Encodings given up as unsafe; no text is in them but the empty one. -/
def replacement : Charset where
  name := "replacement"
  decode? bytes := if bytes.isEmpty then some [] else none

end Charset

/-- UTF-8 and UTF-16 under further labels, windows-1252, and what was given up. -/
def Charsets.western : Charsets
  | "unicode-1-1-utf-8" | "unicode11utf8" | "unicode20utf8" | "x-unicode20utf8" => some .utf8
  | "windows-1252" | "cp1252" | "x-cp1252" | "iso8859-1" | "iso88591" | "ansi_x3.4-1968"
  | "cp819" | "csisolatin1" | "ibm819" | "iso-ir-100" | "iso_8859-1:1987" => some .windows1252
  | "utf-16le" | "csunicode" | "iso-10646-ucs-2" | "ucs-2" | "unicode"
  | "unicodefeff" => some (.utf16 .little)
  | "utf-16be" | "unicodefffe" => some (.utf16 .big)
  | "iso-2022-kr" | "csiso2022kr" | "hz-gb-2312" | "iso-2022-cn" | "iso-2022-cn-ext"
  | "replacement" => some .replacement
  | _ => none

end Xml.Encoding
