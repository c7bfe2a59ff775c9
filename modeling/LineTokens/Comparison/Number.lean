import LineTokens.Comparison.Segment
import LineTokens.Decimal.Binary64

/-!
The numbers that a line computes with. `Arithmetic` is what evaluation needs of them; `binary64` is
the instance used for lines of a document.
-/

namespace LineTokens.Comparison

/-- Numbers with the four operations. A literal that has no finite value has no number. -/
structure Arithmetic (ν : Type) where
  ofLiteral? : List Char → Option ν
  add : ν → ν → ν
  sub : ν → ν → ν
  mul : ν → ν → ν
  div : ν → ν → ν
  isZero : ν → Bool
  isFinite : ν → Bool
  equal : ν → ν → Bool

/-- The parts of a literal before and after its point; `none` with two or more points. -/
def decimalParts? (literal : List Char) : Option (List Char × List Char) :=
  let whole := literal.takeWhile (· ≠ '.')
  let fraction := (literal.drop whole.length).drop 1
  if '.' ∈ fraction then none else some (whole, fraction)

/-- IEEE binary64 numbers. Literals are rounded to the nearest number, ties to even; one that
rounds to infinity has no number. -/
def binary64 : Arithmetic Float where
  ofLiteral? literal := do
    let (whole, fraction) ← decimalParts? literal
    Decimal.read? whole fraction
  add x y := x + y
  sub x y := x - y
  mul x y := x * y
  div x y := x / y
  isZero x := x == 0
  isFinite x := x.isFinite
  equal x y := x == y

end LineTokens.Comparison
