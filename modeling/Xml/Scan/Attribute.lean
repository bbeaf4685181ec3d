import Xml.Scan.State
import Xml.Scan.Tag

/-!
# Attribute values

The value of an attribute is its text with references replaced and white space normalized. The
entities of a document are always substituted here, whatever the options say; external ones cannot
be referred to.

## Termination

The text gets shorter, or an entity is entered, which can happen `maxEntityDepth` times inside each
other.
-/

namespace Xml.Scan

open Text

/-- Adds the value of an attribute's text to `out`. Problems are reported at `place`. -/
def attributeText (env : Env) (place : List Char) (depth : Nat) (text : List Char) (out : String) :
    ScanM String :=
  match text with
  | [] => pure out
  | c :: after =>
    if c == '&' then
      match h : breakOn [';'] after with
      | none => do
        report env .badEntityRef place
        attributeText env place depth after (out.push '&')
      | some (reference, rest) =>
        have := (breakOn_suffix h).length_le
        match after? ['#'] reference with
        | some body =>
          match charRef? body with
          | some c => attributeText env place depth rest (out.push c)
          | none => do
            report env .badCharRef place
            attributeText env place depth rest out
        | none =>
          match predefined? reference with
          | some c => attributeText env place depth rest (out.push c)
          | none =>
            if isName reference then do
              let name := String.ofList reference
              let s ← get
              let out ←
                match s.entities.get? name with
                | some (.internal value) =>
                  if depth < maxEntityDepth then do
                    enterEntity env name value.utf8ByteSize
                    let out ← attributeText env place (depth + 1) value.toList out
                    leaveEntity
                    pure out
                  else fail env .entityLoop s.anchor
                | some _ => do
                  report env (.externalEntityInAttribute name) place
                  pure out
                | none => do
                  report env (.undefinedEntity name) place
                  pure out
              attributeText env place depth rest out
            else do
              report env .badEntityRef place
              attributeText env place depth after (out.push '&')
    else attributeText env place depth after (out.push (normalizeBlank c))
termination_by (maxEntityDepth - depth, text.length)
decreasing_by
  all_goals first
    | (apply Prod.Lex.left; omega)
    | (apply Prod.Lex.right; simp only [List.length_cons]; omega)

def attributeValue (env : Env) (depth : Nat) (raw : RawAttribute) : ScanM String := do
  let place ← placeOf depth raw.place
  checkChars env .attributeValue raw.raw place
  if raw.raw.contains '<' then
    report env .lessThanInAttribute place
  if raw.raw.contains '&' || needsNormalization raw.raw then
    if depth = 0 then
      modify fun s => { s with anchor := place }
    attributeText env place 0 raw.raw ""
  else
    pure (String.ofList raw.raw)

/-- The attributes of a start tag with their values. Of two attributes with one name the first
counts; `kept` holds those read before, latest first. -/
def attributeValues (env : Env) (depth : Nat) (tag : List Char) (kept : List Attribute) :
    List RawAttribute → ScanM (List Attribute)
  | [] => pure kept.reverse
  | raw :: rest => do
    let value ← attributeValue env depth raw
    if kept.any (·.name == raw.name) then
      report env (.attributeRedefined raw.name) (← placeOf depth tag)
      attributeValues env depth tag kept rest
    else attributeValues env depth tag (⟨raw.name, value⟩ :: kept) rest

end Xml.Scan
