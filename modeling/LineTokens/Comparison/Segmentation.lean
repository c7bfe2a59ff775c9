import LineTokens.Comparison.Segment

/-!
What the segments of a line are, said without a scan: a list of spans of the line in ascending
order, each spelling its kind, none of which could be longer, and with no spelling starting between
two of them.
-/

namespace LineTokens.Comparison

/-- Digits, and any number of times a point and digits. -/
inductive NumberText : List Char → Prop
  | digits {ds : List Char} (nonempty : ds ≠ []) (all : ∀ c ∈ ds, isDigit c) : NumberText ds
  | point {cs ds : List Char} (before : NumberText cs) (nonempty : ds ≠ [])
      (all : ∀ c ∈ ds, isDigit c) : NumberText (cs ++ '.' :: ds)

/-- The texts of a kind of segment. -/
def SegmentKind.Spelled : SegmentKind → List Char → Prop
  | .number, text => NumberText text
  | .operator op, text => text = [op.symbol]
  | .comparison relation, text => text = relation.keyword

/-- Some segment could start in a column of a line. -/
def StartsAt (line : List Char) (column : Nat) : Prop :=
  ∃ (kind : SegmentKind) (text : List Char), kind.Spelled text ∧ text <+: line.drop column

/-- The rest of a line cannot continue a number. -/
def EndsNumber (rest : List Char) : Prop :=
  ∀ text, NumberText text → ¬ text <+: rest ∧ ¬ '.' :: text <+: rest

/-- The segment spells its kind in its columns of the line, and a number ends where it must. -/
structure Segment.Occurs (segment : Segment) (line : List Char) : Prop where
  spelled : segment.kind.Spelled segment.text
  spans : segment.text <+: line.drop segment.column
  maximal : segment.kind = .number → EndsNumber (line.drop segment.stop)

/-- A column that lies in none of the segments. -/
def InGap (segments : List Segment) (column : Nat) : Prop :=
  ∀ segment ∈ segments, column < segment.column ∨ segment.stop ≤ column

structure Segmentation (line : List Char) (segments : List Segment) : Prop where
  occurs : ∀ segment ∈ segments, segment.Occurs line
  ascending : segments.Pairwise fun s t => s.stop ≤ t.column
  complete : ∀ column, InGap segments column → ¬ StartsAt line column

end LineTokens.Comparison
