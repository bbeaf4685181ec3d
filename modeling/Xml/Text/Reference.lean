import Xml.Text.Reading

/-!
# References to characters

The five predefined entities, character references by number, and two functions on entity text,
each of which replaces one of these kinds and leaves the other alone.

## Termination

Each goes on behind the `;` of a reference, or behind the `&` when there is none; both
are shorter than the text before.
-/

namespace Xml.Text

/-- The character a predefined entity stands for. -/
def predefined? (name : List Char) : Option Char :=
  match String.ofList name with
  | "lt" => some '<'
  | "gt" => some '>'
  | "amp" => some '&'
  | "quot" => some '"'
  | "apos" => some '\''
  | _ => none

def decimalDigit? (c : Char) : Option Nat :=
  if '0' ≤ c ∧ c ≤ '9' then some (c.toNat - 0x30) else none

def hexDigit? (c : Char) : Option Nat :=
  if '0' ≤ c ∧ c ≤ '9' then some (c.toNat - 0x30)
  else if 'a' ≤ c ∧ c ≤ 'f' then some (c.toNat - 0x61 + 10)
  else if 'A' ≤ c ∧ c ≤ 'F' then some (c.toNat - 0x41 + 10)
  else none

/-- Adds the digits of a text to a number in the given base. -/
def addDigits (base : Nat) (digit? : Char → Option Nat) : Nat → List Char → Option Nat
  | value, [] => some value
  | value, c :: rest =>
    match digit? c with
    | some d => addDigits base digit? (value * base + d) rest
    | none => none

def number? (base : Nat) (digit? : Char → Option Nat) (text : List Char) : Option Nat :=
  if text.isEmpty then none else addDigits base digit? 0 text

/-- The code point named by the part of a character reference between `&#` and `;`. -/
def codePoint? : List Char → Option Nat
  | 'x' :: hex => number? 16 hexDigit? hex
  | decimal => number? 10 decimalDigit? decimal

/-- The character named by the part of a character reference between `&#` and `;`, if it is one a
document may hold. -/
def charRef? (body : List Char) : Option Char :=
  match codePoint? body with
  | some code => if isXmlChar code then some (Char.ofNat code) else none
  | none => none

/-- The character of a reference whose body the text begins with, and the rest behind its `;`. -/
def readReference? (meaning? : List Char → Option Char) (text : List Char) :
    Option (Char × List Char) :=
  match breakOn [';'] text with
  | some (body, rest) => (meaning? body).map fun c => (c, rest)
  | none => none

theorem readReference?_suffix {meaning? : List Char → Option Char} {text rest : List Char}
    {c : Char} (h : readReference? meaning? text = some (c, rest)) : rest <:+ text := by
  simp only [readReference?] at h
  split at h
  · next hb =>
    obtain ⟨d, _, hd⟩ := Option.map_eq_some_iff.mp h
    cases hd
    exact breakOn_suffix hb
  · cases h

/-- Replaces the character references of an entity literal; other references stay, since they
are expanded where the entity is used. -/
def expandCharRefs : List Char → List Char
  | '&' :: '#' :: rest =>
    match h : readReference? charRef? rest with
    | some (c, tail) =>
      have := (readReference?_suffix h).length_le
      c :: expandCharRefs tail
    | none => '&' :: '#' :: expandCharRefs rest
  | c :: rest => c :: expandCharRefs rest
  | [] => []
termination_by text => text.length
decreasing_by all_goals (simp only [List.length_cons]; omega)

/-- Replaces the predefined references of a text; other references stay. -/
def decodePredefined : List Char → List Char
  | '&' :: rest =>
    match h : readReference? predefined? rest with
    | some (c, tail) =>
      have := (readReference?_suffix h).length_le
      c :: decodePredefined tail
    | none => '&' :: decodePredefined rest
  | c :: rest => c :: decodePredefined rest
  | [] => []
termination_by text => text.length
decreasing_by all_goals (simp only [List.length_cons]; omega)

end Xml.Text
