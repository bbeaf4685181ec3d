import Xml.Number.Binary

/-!
# Shortest decimals

The decimal with the fewest digits that reads back as a given number, and of those the one nearest
to it. For one digit, two digits and so on the two neighbours of the number on that decimal grid
are tried, in exact arithmetic; the first grid with a hit wins. Of two hits the nearer is taken,
the larger if the number is halfway between them.
-/

namespace Xml.Number

/-- The decimal `digits * 10 ^ exponent`. -/
structure Decimal where
  digits : Nat
  exponent : Int
  deriving DecidableEq, Repr

namespace Decimal

/-- Compares a decimal with `n * 2 ^ k`. -/
def compareBinary (d : Decimal) (n : Nat) (k : Int) : Ordering :=
  compare (d.digits * Nat.pow 10 d.exponent.toNat * Nat.pow 2 (-k).toNat)
    (n * Nat.pow 2 k.toNat * Nat.pow 10 (-d.exponent).toNat)

/-- Moves zeros at the end of the digits into the exponent. The bound is a number of digits. -/
def stripZeros : Nat → Decimal → Decimal
  | 0, d => d
  | bound + 1, d =>
    if d.digits ≠ 0 ∧ d.digits % 10 = 0 then stripZeros bound ⟨d.digits / 10, d.exponent + 1⟩
    else d

end Decimal

namespace Binary

/-- A decimal reads back as a number if it lies between the points halfway to its neighbours; these
count for an even mantissa, to which a half is rounded. -/
def readsBack (x : Binary) (d : Decimal) : Bool :=
  let low := if x.narrowBelow then 4 * x.mantissa - 1 else 4 * x.mantissa - 2
  let high := 4 * x.mantissa + 2
  let atLow := d.compareBinary low (x.exponent - 2)
  let atHigh := d.compareBinary high (x.exponent - 2)
  if x.mantissa % 2 = 0 then atLow != .lt && atHigh != .gt else atLow == .gt && atHigh == .lt

/-- The power of ten below a positive number: the `k` with `10 ^ k ≤ x < 10 ^ (k + 1)`. The first
guess is from the power of two below it and off by one at most. -/
def floorLog10 (x : Binary) : Int :=
  let binary : Int := x.mantissa.log2 + x.exponent
  let guess := (binary * 30103).fdiv 100000
  let reaches := fun k : Int => (⟨1, k⟩ : Decimal).compareBinary x.mantissa x.exponent != .gt
  if reaches (guess + 1) then guess + 1
  else if reaches guess then guess
  else guess - 1

/-- The largest multiple of `10 ^ grid` that is not above a number. -/
def below (x : Binary) (grid : Int) : Nat :=
  (x.mantissa * Nat.pow 2 x.exponent.toNat * Nat.pow 10 (-grid).toNat)
    / (Nat.pow 2 (-x.exponent).toNat * Nat.pow 10 grid.toNat)

/-- The decimal of a grid that reads back, the nearer one if two do. -/
def onGrid? (x : Binary) (grid : Int) : Option Decimal :=
  let lower : Decimal := ⟨x.below grid, grid⟩
  let upper : Decimal := ⟨x.below grid + 1, grid⟩
  match x.readsBack lower, x.readsBack upper with
  | true, true =>
    let middle : Decimal := ⟨lower.digits + upper.digits, grid⟩
    some (if middle.compareBinary (2 * x.mantissa) x.exponent == .gt then lower else upper)
  | true, false => some lower
  | false, true => some upper
  | false, false => none

def exactDecimal (x : Binary) : Decimal :=
  let places := (-x.exponent).toNat
  ⟨x.mantissa * Nat.pow 2 x.exponent.toNat * Nat.pow 5 places, -(places : Int)⟩

/-- The shortest decimal that reads back as a positive number. Seventeen digits are always
enough. -/
def shortest (x : Binary) : Decimal :=
  let top := x.floorLog10
  let found := (List.range 17).findSome? fun n : Nat => x.onGrid? (top - n)
  (found.getD x.exactDecimal).stripZeros 1100

end Binary

end Xml.Number
