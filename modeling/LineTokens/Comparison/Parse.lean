import LineTokens.Comparison.Failure
import LineTokens.Comparison.Number
import LineTokens.Token

/-!
Reading a line as `expression keyword expression` and evaluating it on the way. A failure stops the
reading where it arises, so of two failures the first from the left is reported; `Stop` keeps the
segments that were not yet consumed then.
-/

namespace LineTokens.Comparison

variable {ν : Type}

/-- A failure, and the segments that are left after those consumed. -/
structure Stop where
  failure : ParseFailure
  rest : List Segment
deriving DecidableEq, Repr

/-- A value and the segments that are left, or a stop. -/
abbrev Parsed (α : Type) := Except Stop (α × List Segment)

def Operator.value (arith : Arithmetic ν) (op : Operator) (lhs rhs : ν) : ν :=
  match op with
  | .add => arith.add lhs rhs
  | .subtract => arith.sub lhs rhs
  | .multiply => arith.mul lhs rhs
  | .divide => arith.div lhs rhs

/-- The operation's result. A quotient by zero and a result that is not finite are failures. -/
def Operator.apply (arith : Arithmetic ν) (op : Operator) (lhs rhs : ν) : Except ParseFailure ν :=
  if op = .divide ∧ arith.isZero rhs then .error .divisionByZero
  else if arith.isFinite (op.value arith lhs rhs) then .ok (op.value arith lhs rhs)
  else .error .nonFinite

def Relation.holds (arith : Arithmetic ν) (relation : Relation) (lhs rhs : ν) : Bool :=
  match relation with
  | .equals => arith.equal lhs rhs
  | .notEquals => !arith.equal lhs rhs

def Segment.number (arith : Arithmetic ν) (segment : Segment) : Except ParseFailure ν :=
  match segment.kind with
  | .number =>
    match arith.ofLiteral? segment.text with
    | some value => if arith.isFinite value then .ok value else .error (.invalidNumber segment.text)
    | none => .error (.invalidNumber segment.text)
  | _ => .error (.unexpected .number segment.text segment.column)

/-- A sum that waits for its next term, with the operator between the two. -/
abbrev Pending (ν : Type) := Option (ν × Operator)

/-- Adds a finished term to the sum that waits for it. -/
def finishTerm (arith : Arithmetic ν) (pending : Pending ν) (term : ν) : Except ParseFailure ν :=
  match pending with
  | none => .ok term
  | some (sum, op) => op.apply arith sum term

/-- Goes on with an expression after a number: `term` is the value of the current term so far and
`pending` the sum it belongs to. A tight operator extends the term. Before any other segment the
term is finished, and then a loose operator starts the next one. -/
def expressionTail (arith : Arithmetic ν) (pending : Pending ν) (term : ν) :
    List Segment → Parsed ν
  | [] =>
    match finishTerm arith pending term with
    | .error failure => .error ⟨failure, []⟩
    | .ok sum => .ok (sum, [])
  | segment :: rest =>
    match segment.kind with
    | .operator op =>
      if op.bindsTight then
        match rest with
        | [] => .error ⟨.unexpectedEnd .number, []⟩
        | operand :: rest =>
          match operand.number arith with
          | .error failure => .error ⟨failure, rest⟩
          | .ok rhs =>
            match op.apply arith term rhs with
            | .error failure => .error ⟨failure, rest⟩
            | .ok term => expressionTail arith pending term rest
      else
        match finishTerm arith pending term with
        | .error failure => .error ⟨failure, segment :: rest⟩
        | .ok sum =>
          match rest with
          | [] => .error ⟨.unexpectedEnd .number, []⟩
          | operand :: rest =>
            match operand.number arith with
            | .error failure => .error ⟨failure, rest⟩
            | .ok term => expressionTail arith (some (sum, op)) term rest
    | _ =>
      match finishTerm arith pending term with
      | .error failure => .error ⟨failure, segment :: rest⟩
      | .ok sum => .ok (sum, segment :: rest)

/-- `expression := term (("+" | "-") term)*` with `term := number (("*" | "/") number)*`. -/
def expression (arith : Arithmetic ν) : List Segment → Parsed ν
  | [] => .error ⟨.unexpectedEnd .number, []⟩
  | operand :: rest =>
    match operand.number arith with
    | .error failure => .error ⟨failure, rest⟩
    | .ok term => expressionTail arith none term rest

/-- The comparison keyword and the segment that holds it. -/
def comparison : List Segment → Parsed (Relation × Segment)
  | [] => .error ⟨.unexpectedEnd .keyword, []⟩
  | segment :: rest =>
    match segment.kind with
    | .comparison relation => .ok ((relation, segment), rest)
    | _ => .error ⟨.unexpected .keyword segment.text segment.column, rest⟩

/-- Reads the segments of a line: the segment of the keyword, and whether the comparison holds. -/
def parseSegments (arith : Arithmetic ν) (segments : List Segment) :
    Except Stop (Segment × Bool) := do
  let (lhs, rest) ← expression arith segments
  let ((relation, keyword), rest) ← comparison rest
  let (rhs, rest) ← expression arith rest
  match rest with
  | [] => .ok (keyword, relation.holds arith lhs rhs)
  | extra :: _ => .error ⟨.trailing extra.text extra.column, rest⟩

/-- The token of a line, over any arithmetic: it spans the comparison keyword. -/
def parseLineWith (arith : Arithmetic ν) (line : Nat) (text : List Char) :
    Except ParseFailure Token :=
  match parseSegments arith (segments text) with
  | .error stop => .error stop.failure
  | .ok (keyword, outcome) =>
    .ok ⟨line, keyword.column, keyword.length, .ofOutcome outcome⟩

/-- The token of a line, computed in binary64. -/
def parseLine (line : Nat) (text : List Char) : Except ParseFailure Token :=
  parseLineWith binary64 line text

/-- The tokenizer of the comparison grammar: a line that is no comparison has no token. -/
def tokenizer : Tokenizer := fun line text => (parseLine line text).toOption

end LineTokens.Comparison
