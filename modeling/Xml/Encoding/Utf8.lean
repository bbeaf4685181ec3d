/-!
# UTF-8

Strict decoding, one character at a time. Where bytes are no UTF-8, what was decoded before them
is kept, since problems are reported at that place.
-/

namespace Xml.Encoding

/-- The six bits a continuation byte adds. -/
def continuation? (byte : UInt8) : Option Nat :=
  if 0x80 ≤ byte ∧ byte ≤ 0xBF then some (byte.toNat - 0x80) else none

/-- A character by its code point, if `code` is one and at least `least`. -/
def charFrom? (least code : Nat) : Option Char :=
  if least ≤ code ∧ code.isValidChar then some (Char.ofNat code) else none

/-- The character that the bytes begin with and the bytes after it. -/
def nextUtf8? : List UInt8 → Option (Char × List UInt8)
  | [] => none
  | a :: rest =>
    if a < 0x80 then some (Char.ofNat a.toNat, rest)
    else if a < 0xC0 then none
    else if a < 0xE0 then
      match rest with
      | b :: rest => do
        let b ← continuation? b
        let c ← charFrom? 0x80 ((a.toNat - 0xC0) * 0x40 + b)
        return (c, rest)
      | _ => none
    else if a < 0xF0 then
      match rest with
      | b :: c :: rest => do
        let b ← continuation? b
        let c ← continuation? c
        let c ← charFrom? 0x800 (((a.toNat - 0xE0) * 0x40 + b) * 0x40 + c)
        return (c, rest)
      | _ => none
    else if a < 0xF8 then
      match rest with
      | b :: c :: d :: rest => do
        let b ← continuation? b
        let c ← continuation? c
        let d ← continuation? d
        let c ← charFrom? 0x10000 ((((a.toNat - 0xF0) * 0x40 + b) * 0x40 + c) * 0x40 + d)
        return (c, rest)
      | _ => none
    else none

theorem nextUtf8?_length {bytes rest : List UInt8} {c : Char}
    (h : nextUtf8? bytes = some (c, rest)) : rest.length < bytes.length := by
  cases bytes with
  | nil => cases h
  | cons a tail =>
    simp only [nextUtf8?] at h
    repeat' split at h
    all_goals
      simp only [Option.bind_eq_bind, Option.bind_eq_some_iff, Option.pure_def, Option.some.injEq,
        Prod.mk.injEq, reduceCtorEq] at h
      try grind

/-- Decodes bytes behind the characters `passed`, which are kept in reverse. -/
def decodeUtf8From (passed : List Char) (bytes : List UInt8) : Except (List Char) (List Char) :=
  match bytes with
  | [] => .ok passed.reverse
  | a :: rest =>
    match h : nextUtf8? (a :: rest) with
    | some (c, tail) =>
      have := nextUtf8?_length h
      decodeUtf8From (c :: passed) tail
    | none => .error passed.reverse
termination_by bytes.length
decreasing_by assumption

/-- The text that bytes encode, or the text before the first bytes that encode none. -/
def decodeUtf8 (bytes : List UInt8) : Except (List Char) (List Char) :=
  decodeUtf8From [] bytes

end Xml.Encoding
