/-!
# UTF-16

Decoding of sixteen-bit units in either byte order. A lone surrogate or a single byte at the end
is no text.
-/

namespace Xml.Encoding

/-- The order of the two bytes of a unit. -/
inductive ByteOrder where
  | little
  | big
  deriving DecidableEq, Repr

def ByteOrder.unit (order : ByteOrder) (first second : UInt8) : Nat :=
  match order with
  | .little => second.toNat * 0x100 + first.toNat
  | .big => first.toNat * 0x100 + second.toNat

/-- The first half of a character outside the first sixteen bits. -/
def isHighSurrogate (unit : Nat) : Bool :=
  0xD800 ≤ unit && unit ≤ 0xDBFF

def isLowSurrogate (unit : Nat) : Bool :=
  0xDC00 ≤ unit && unit ≤ 0xDFFF

/-- Decodes bytes behind the characters `passed`, which are kept in reverse. -/
def decodeUtf16From (order : ByteOrder) (passed : List Char) : List UInt8 → Option (List Char)
  | [] => some passed.reverse
  | [_] => none
  | a :: b :: rest =>
    let unit := order.unit a b
    if isHighSurrogate unit then
      match rest with
      | c :: d :: rest =>
        let low := order.unit c d
        if isLowSurrogate low then
          let code := 0x10000 + (unit - 0xD800) * 0x400 + (low - 0xDC00)
          decodeUtf16From order (Char.ofNat code :: passed) rest
        else none
      | _ => none
    else if isLowSurrogate unit then none
    else decodeUtf16From order (Char.ofNat unit :: passed) rest

def decodeUtf16 (order : ByteOrder) (bytes : List UInt8) : Option (List Char) :=
  decodeUtf16From order [] bytes

end Xml.Encoding
