import LineTokens.Comparison.Parse

/-!
The grammar of lines as relations between segments and values: `Term` and `Expression` say which
segments have which value, multiplication and division binding tighter than addition and
subtraction, and all four grouping to the left. A value stands only for operations that have a
finite one.
-/

namespace LineTokens.Comparison

variable {ν : Type}

/-- A number whose literal has a finite value. -/
structure Segment.Writes (arith : Arithmetic ν) (segment : Segment) (value : ν) : Prop where
  kind_eq : segment.kind = .number
  literal_eq : arith.ofLiteral? segment.text = some value
  finite : arith.isFinite value = true

/-- An operation with a finite value and, if it divides, without a zero divisor. -/
structure Operator.Yields (arith : Arithmetic ν) (op : Operator) (lhs rhs value : ν) : Prop where
  divisor : op = .divide → arith.isZero rhs = false
  value_eq : op.value arith lhs rhs = value
  finite : arith.isFinite value = true

inductive Term (arith : Arithmetic ν) : List Segment → ν → Prop
  | number {s : Segment} {v : ν} (writes : s.Writes arith v) : Term arith [s] v
  | extend {ss : List Segment} {s n : Segment} {op : Operator} {v w u : ν}
      (before : Term arith ss v) (kind_eq : s.kind = .operator op) (tight : op.bindsTight = true)
      (writes : n.Writes arith w) (yields : op.Yields arith v w u) : Term arith (ss ++ [s, n]) u

inductive Expression (arith : Arithmetic ν) : List Segment → ν → Prop
  | term {ss : List Segment} {v : ν} (term : Term arith ss v) : Expression arith ss v
  | extend {ss ts : List Segment} {s : Segment} {op : Operator} {v w u : ν}
      (before : Expression arith ss v) (kind_eq : s.kind = .operator op)
      (loose : op.bindsTight = false) (term : Term arith ts w) (yields : op.Yields arith v w u) :
      Expression arith (ss ++ s :: ts) u

/-- Two expressions and a keyword between them, and whether the comparison holds. -/
inductive Compares (arith : Arithmetic ν) : List Segment → Segment → Bool → Prop
  | intro {left right : List Segment} {keyword : Segment} {relation : Relation} {lhs rhs : ν}
      (left_value : Expression arith left lhs) (kind_eq : keyword.kind = .comparison relation)
      (right_value : Expression arith right rhs) :
      Compares arith (left ++ keyword :: right) keyword (relation.holds arith lhs rhs)

theorem Segment.number_eq_ok_iff {arith : Arithmetic ν} {segment : Segment} {value : ν} :
    segment.number arith = .ok value ↔ segment.Writes arith value := by
  constructor
  · intro h
    unfold Segment.number at h
    split at h
    · rename_i hkind
      split at h
      · rename_i v hliteral
        split at h
        · rename_i hfinite
          cases h
          exact ⟨hkind, hliteral, hfinite⟩
        · cases h
      · cases h
    · cases h
  · rintro ⟨hkind, hliteral, hfinite⟩
    simp [Segment.number, hkind, hliteral, hfinite]

theorem Operator.apply_eq_ok_iff {arith : Arithmetic ν} {op : Operator} {lhs rhs value : ν} :
    op.apply arith lhs rhs = .ok value ↔ op.Yields arith lhs rhs value := by
  constructor
  · intro h
    unfold Operator.apply at h
    split at h
    · cases h
    · rename_i hzero
      split at h
      · rename_i hfinite
        cases h
        exact ⟨fun hop => by simpa [hop] using hzero, rfl, hfinite⟩
      · cases h
  · rintro ⟨hdivisor, rfl, hfinite⟩
    have hzero : ¬(op = .divide ∧ arith.isZero rhs = true) := by
      rintro ⟨hop, hz⟩
      rw [hdivisor hop] at hz
      cases hz
    rw [Operator.apply, if_neg hzero, if_pos hfinite]

end LineTokens.Comparison
