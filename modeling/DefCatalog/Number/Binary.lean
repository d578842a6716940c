/-!
# Rounding to 53 significant bits

Numbers of the form `m · 2^q` and the rounding of quotients to such a number with at most 53
significant bits, ties to the even one. Chains of such roundings are what a computation with
double-precision floating-point numbers yields, as long as no exponent leaves its range.
-/

namespace DefCatalog

/-- The number `mantissa · 2^exponent`. -/
structure Binary where
  mantissa : Nat
  exponent : Int
deriving DecidableEq, Repr

namespace Binary

/-- The quotient rounded to the nearest natural number, ties to the even one. -/
def divRoundEven (numerator denominator : Nat) : Nat :=
  let quotient := numerator / denominator
  let twice := 2 * (numerator % denominator)
  if twice < denominator ∨ twice = denominator ∧ quotient % 2 = 0 then quotient else quotient + 1

/-- The value times a power of two that makes it a quotient of natural numbers. -/
def scale (numerator denominator : Nat) (exponent : Int) : Nat × Nat :=
  if 0 ≤ exponent then (numerator, denominator <<< exponent.toNat)
  else (numerator <<< (-exponent).toNat, denominator)

/-- The quotient of two natural numbers, rounded to 53 significant bits. -/
def ofQuotient (numerator denominator : Nat) : Binary :=
  if numerator = 0 then ⟨0, 0⟩
  else
    let guess : Int := (numerator.log2 : Int) - (denominator.log2 : Int)
    let (top, bottom) := scale numerator denominator guess
    let exponent := if bottom ≤ top then guess - 52 else guess - 53
    let (top, bottom) := scale numerator denominator exponent
    ⟨divRoundEven top bottom, exponent⟩

/-- A natural number, rounded to 53 significant bits. -/
def ofNat (n : Nat) : Binary :=
  ofQuotient n 1

/-- The numerator and the denominator of the value. -/
def fraction (value : Binary) : Nat × Nat :=
  if 0 ≤ value.exponent then (value.mantissa <<< value.exponent.toNat, 1)
  else (value.mantissa, 1 <<< (-value.exponent).toNat)

/-- The quotient of two values, rounded. -/
def div (a b : Binary) : Binary :=
  ofQuotient (a.fraction.1 * b.fraction.2) (a.fraction.2 * b.fraction.1)

/-- The product of a value and a natural number, rounded. -/
def scaleBy (value : Binary) (factor : Nat) : Binary :=
  ofQuotient (value.fraction.1 * factor) value.fraction.2

/-- The nearest natural number, a half going up. -/
def round (value : Binary) : Nat :=
  (2 * value.fraction.1 + value.fraction.2) / (2 * value.fraction.2)

end Binary

end DefCatalog
