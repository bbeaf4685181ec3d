/-!
# Binary numbers

Double precision numbers taken apart into exact naturals, and the nearest such number to a
fraction. A finite number is `mantissa * 2 ^ exponent` with a sign; all arithmetic here is on
naturals and integers, so nothing is rounded but where it says so.
-/

namespace Xml.Number

/-- The magnitude of a finite number: `mantissa * 2 ^ exponent`. -/
structure Binary where
  mantissa : Nat
  exponent : Int
  /-- The gap to the next smaller number is half the gap to the next larger one. -/
  narrowBelow : Bool
  deriving DecidableEq, Repr

/-- The sign bit is set. -/
def isNegative (x : Float) : Bool :=
  x.toBits >>> 63 == 1

def Binary.ofFloat (x : Float) : Binary :=
  let bits := x.toBits
  let field := ((bits >>> 52) &&& 0x7FF).toNat
  let fraction := (bits &&& 0xFFFFFFFFFFFFF).toNat
  if field = 0 then ⟨fraction, -1074, false⟩
  else ⟨0x10000000000000 + fraction, (field : Int) - 1075, fraction = 0 && field > 1⟩

/-- The power of two below a positive fraction: the `k` with `2 ^ k ≤ num / den < 2 ^ (k + 1)`. -/
def floorLog2 (num den : Nat) : Int :=
  let k : Int := (num.log2 : Int) - den.log2
  if den * Nat.pow 2 k.toNat ≤ num * Nat.pow 2 (-k).toNat then k else k - 1

/-- A quotient rounded to the nearest natural, a half to the even one. -/
def roundHalfEven (num den : Nat) : Nat :=
  let quotient := num / den
  let twice := 2 * (num % den)
  if twice < den then quotient
  else if twice > den then quotient + 1
  else quotient + quotient % 2

def infinityBits : Nat := 0x7FF0000000000000

/-- The bits of the number nearest to a fraction. The mantissa is added to the exponent field, so
that one which is rounded up to the next power of two carries into it. -/
def nearestBits (num den : Nat) : Nat :=
  if num = 0 then 0
  else
    let exponent := max (floorLog2 num den - 52) (-1074)
    let mantissa :=
      roundHalfEven (num * Nat.pow 2 (-exponent).toNat) (den * Nat.pow 2 exponent.toNat)
    min ((exponent + 1074).toNat * 0x10000000000000 + mantissa) infinityBits

def nearest (negative : Bool) (num den : Nat) : Float :=
  let sign := if negative then 0x8000000000000000 else 0
  Float.ofBits (UInt64.ofNat (sign + nearestBits num den))

def nan : Float := 0.0 / 0.0

def infinity : Float := 1.0 / 0.0

/-- The remainder of a division whose quotient is rounded toward zero. It is exact and has the sign
of the dividend. -/
def remainder (x y : Float) : Float :=
  if x.isNaN || y.isNaN || x.isInf || y == 0.0 then nan
  else if y.isInf then x
  else
    let a := Binary.ofFloat x
    let b := Binary.ofFloat y
    let exponent := min a.exponent b.exponent
    let rest := (a.mantissa * Nat.pow 2 (a.exponent - exponent).toNat)
      % (b.mantissa * Nat.pow 2 (b.exponent - exponent).toNat)
    nearest (isNegative x) (rest * Nat.pow 2 exponent.toNat) (Nat.pow 2 (-exponent).toNat)

end Xml.Number
