import Xml.Number.Binary
import Xml.Text.Chars

/-!
# Reading numbers

A decimal is digits with at most one point among them; it reads as the nearest number.
-/

namespace Xml.Number

def digitsValue (digits : List Char) : Nat :=
  digits.foldl (fun value c => 10 * value + (c.toNat - '0'.toNat)) 0

/-- The number nearest to digits with digits after a point. -/
def ofDigits (negative : Bool) (whole fraction : List Char) : Float :=
  nearest negative (digitsValue (whole ++ fraction)) (Nat.pow 10 fraction.length)

def trimBlanks (text : List Char) : List Char :=
  ((text.dropWhile Text.isBlank).reverse.dropWhile Text.isBlank).reverse

/-- Reads digits with at most one point among them. -/
def readUnsigned (negative : Bool) (text : List Char) : Float :=
  let whole := text.takeWhile Char.isDigit
  match text.dropWhile Char.isDigit with
  | [] => if whole.isEmpty then nan else ofDigits negative whole []
  | '.' :: fraction =>
    if fraction.all Char.isDigit && !(whole.isEmpty && fraction.isEmpty) then
      ofDigits negative whole fraction
    else nan
  | _ => nan

/-- The number a string stands for: blanks, an optional minus sign, and a decimal. Anything else is
no number. -/
def ofText (text : String) : Float :=
  match trimBlanks text.toList with
  | '-' :: rest => readUnsigned true rest
  | chars => readUnsigned false chars

end Xml.Number
