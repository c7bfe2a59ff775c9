/-!
Reading a decimal as a binary64 number: `nearestBits` rounds a quotient of natural numbers to the
nearest binary64 magnitude, a tie going to the even one, in exact arithmetic.
-/

namespace LineTokens.Decimal

/-- A fraction of two natural numbers rounded to the nearest integer, a tie to the even one. -/
def roundEven (num den : Nat) : Nat :=
  let quotient := num / den
  let twice := 2 * (num % den)
  if den < twice ∨ (twice = den ∧ quotient % 2 = 1) then quotient + 1 else quotient

/-- Whether `2 ^ exponent ≤ num / den`. -/
def powerLe (num den : Nat) (exponent : Int) : Bool :=
  if 0 ≤ exponent then den <<< exponent.toNat ≤ num else den ≤ num <<< (-exponent).toNat

/-- The greatest `e` with `2 ^ e ≤ num / den`, for positive `num` and `den`. -/
def floorLog2 (num den : Nat) : Int :=
  let guess : Int := (num.log2 : Int) - (den.log2 : Int)
  if powerLe num den guess then guess else guess - 1

/-- The bits of a binary64 magnitude `significand * 2 ^ (exponent - 1074)`. Adding the significand
to the shifted exponent also carries a significand of `2 ^ 53` over. -/
def packBits (significand exponent : Nat) : Nat := exponent <<< 52 + significand

/-- The bits of positive infinity; every finite magnitude lies below. -/
def infinityBits : Nat := 0x7ff0000000000000

/-- The bits of the binary64 magnitude nearest to `num / den`, a tie going to the even one. From
`infinityBits` on, the value is too large. -/
def nearestBits (num den : Nat) : Nat :=
  if num = 0 then 0
  else
    let exponent := (floorLog2 num den + 1022).toNat
    -- the significand counts units of `2 ^ (exponent - 1074)`
    let significand :=
      if 1074 ≤ exponent then roundEven num (den <<< (exponent - 1074))
      else roundEven (num <<< (1074 - exponent)) den
    packBits significand exponent

/-- The value of a decimal digit; other characters count as zero. -/
def digitValue (c : Char) : Nat := if c.isDigit then c.toNat - '0'.toNat else 0

def digitsValue (digits : List Char) : Nat :=
  digits.foldl (fun value c => value * 10 + digitValue c) 0

/-- The finite binary64 number nearest to the decimal with the given digits before and after the
point. -/
def read? (whole fraction : List Char) : Option Float :=
  let bits := nearestBits (digitsValue (whole ++ fraction)) (Nat.pow 10 fraction.length)
  if bits < infinityBits then some (Float.ofBits (UInt64.ofNat bits)) else none

end LineTokens.Decimal
