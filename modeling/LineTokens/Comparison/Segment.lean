/-!
Segments: the numbers, arithmetic operators and comparison keywords of a line. `segments` walks the
line from the left and skips every character at which no segment starts. Columns count characters.
-/

namespace LineTokens.Comparison

inductive Operator
  | add
  | subtract
  | multiply
  | divide
deriving DecidableEq, Repr

def Operator.symbol : Operator → Char
  | add => '+'
  | subtract => '-'
  | multiply => '*'
  | divide => '/'

def Operator.ofSymbol? (c : Char) : Option Operator :=
  if c = '+' then some add
  else if c = '-' then some subtract
  else if c = '*' then some multiply
  else if c = '/' then some divide
  else none

/-- Multiplication and division bind tighter than addition and subtraction. -/
def Operator.bindsTight : Operator → Bool
  | add | subtract => false
  | multiply | divide => true

inductive Relation
  | equals
  | notEquals
deriving DecidableEq, Repr

def Relation.keyword : Relation → List Char
  | equals => ['E', 'Q', 'U', 'A', 'L', 'S']
  | notEquals => ['N', 'O', 'T', '_', 'E', 'Q', 'U', 'A', 'L', 'S']

inductive SegmentKind
  | number
  | operator (op : Operator)
  | comparison (relation : Relation)
deriving DecidableEq, Repr

structure Segment where
  kind : SegmentKind
  text : List Char
  column : Nat
deriving DecidableEq, Repr

def Segment.length (segment : Segment) : Nat := segment.text.length

/-- The column after the last character. -/
def Segment.stop (segment : Segment) : Nat := segment.column + segment.length

/-- The decimal digits are the ten of ASCII. -/
def isDigit (c : Char) : Bool := c.isDigit

/-- The longest start of a text made of digits and of points that a digit follows. -/
def numberText : List Char → List Char
  | [] => []
  | c :: rest =>
    if isDigit c then c :: numberText rest
    else if c = '.' ∧ rest.head?.any isDigit then c :: numberText rest
    else []

/-- The kind and the characters of the segment that starts with the first character, if one
does. -/
def segmentAt? : List Char → Option (SegmentKind × List Char)
  | [] => none
  | c :: rest =>
    if isDigit c then some (.number, numberText (c :: rest))
    else
      match Operator.ofSymbol? c with
      | some op => some (.operator op, [c])
      | none =>
        if Relation.notEquals.keyword.isPrefixOf (c :: rest) then
          some (.comparison .notEquals, Relation.notEquals.keyword)
        else if Relation.equals.keyword.isPrefixOf (c :: rest) then
          some (.comparison .equals, Relation.equals.keyword)
        else none

/-- The segments of a text whose first character stands in column `column`, of which the first
`skip` characters belong to a segment already found. -/
def scan : List Char → Nat → Nat → List Segment
  | [], _, _ => []
  | _ :: rest, column, skip + 1 => scan rest (column + 1) skip
  | c :: rest, column, 0 =>
    match segmentAt? (c :: rest) with
    | none => scan rest (column + 1) 0
    | some (kind, text) => ⟨kind, text, column⟩ :: scan rest (column + 1) (text.length - 1)

def segments (line : List Char) : List Segment := scan line 0 0

theorem Operator.eq_symbol_of_ofSymbol? {c : Char} {op : Operator} (h : ofSymbol? c = some op) :
    c = op.symbol := by
  unfold ofSymbol? at h
  split at h
  · cases h; assumption
  · split at h
    · cases h; assumption
    · split at h
      · cases h; assumption
      · split at h
        · cases h; assumption
        · cases h

end LineTokens.Comparison
