import Xml.Number.Shortest

/-!
# Numbers as text

Two ways to write a number, both with the shortest digits that read back. `text` never uses an
exponent and writes whole numbers without a point; it is how a number becomes a string in an
expression. `literal` keeps a point in whole numbers and uses an exponent for very large and very
small ones; it is how messages quote numbers.
-/

namespace Xml.Number

def digitsOf (n : Nat) : List Char :=
  Nat.toDigits 10 n

def Decimal.positional (d : Decimal) : List Char :=
  let digits := digitsOf d.digits
  if d.exponent ≥ 0 then digits ++ List.replicate d.exponent.toNat '0'
  else
    let places := (-d.exponent).toNat
    if places < digits.length then
      digits.take (digits.length - places) ++ '.' :: digits.drop (digits.length - places)
    else '0' :: '.' :: (List.replicate (places - digits.length) '0' ++ digits)

def Decimal.leadingExponent (d : Decimal) : Int :=
  (digitsOf d.digits).length - 1 + d.exponent

/-- A decimal with one digit before the point and an exponent. -/
def Decimal.scientific (d : Decimal) : List Char :=
  let exponent := d.leadingExponent
  let sign := if exponent < 0 then ['-'] else []
  let power := 'e' :: (sign ++ digitsOf exponent.natAbs)
  match digitsOf d.digits with
  | [] => power
  | [digit] => digit :: power
  | digit :: rest => digit :: '.' :: (rest ++ power)

def signOf (x : Float) : List Char :=
  if isNegative x then ['-'] else []

/-- A number as a string in an expression. Zero has no sign. -/
def text (x : Float) : String :=
  if x.isNaN then "NaN"
  else if x.isInf then (if isNegative x then "-Infinity" else "Infinity")
  else if x == 0.0 then "0"
  else String.ofList (signOf x ++ (Binary.ofFloat x).shortest.positional)

/-- A number as messages quote it. Numbers from `10 ^ 16` and below `10 ^ -4` have an exponent. -/
def literal (x : Float) : String :=
  if x.isNaN then "NaN"
  else if x.isInf then (if isNegative x then "-inf" else "inf")
  else if x == 0.0 then (if isNegative x then "-0.0" else "0.0")
  else
    let d := (Binary.ofFloat x).shortest
    let body :=
      if d.leadingExponent < -4 || d.leadingExponent ≥ 16 then d.scientific
      else if d.exponent ≥ 0 then d.positional ++ ['.', '0']
      else d.positional
    String.ofList (signOf x ++ body)

end Xml.Number
