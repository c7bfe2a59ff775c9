/-!
Why a line is no comparison.
-/

namespace LineTokens.Comparison

/-- What a line is read for at some place. -/
inductive Expected
  | number
  | keyword
deriving DecidableEq, Repr

def Expected.text : Expected → String
  | number => "number"
  | keyword => "comparison keyword"

inductive ParseFailure
  | unexpectedEnd (expected : Expected)
  | unexpected (expected : Expected) (found : List Char) (column : Nat)
  | invalidNumber (literal : List Char)
  | divisionByZero
  | nonFinite
  | trailing (found : List Char) (column : Nat)
deriving DecidableEq, Repr

def ParseFailure.message : ParseFailure → String
  | unexpectedEnd expected => "line ended where a " ++ expected.text ++ " was expected"
  | unexpected expected found column =>
    "expected a " ++ expected.text ++ ", found `" ++ String.ofList found ++ "` at column "
      ++ toString column
  | invalidNumber literal => "`" ++ String.ofList literal ++ "` is not a number"
  | divisionByZero => "division by zero"
  | nonFinite => "arithmetic result is not a finite number"
  | trailing found column =>
    "trailing `" ++ String.ofList found ++ "` at column " ++ toString column

end LineTokens.Comparison
