import LineTokens.Comparison.Grammar

/-! Reading accepts what the grammar of `Term` and `Expression` describes. `Underway` says what has
been read when `expressionTail` is entered with a pending sum and a term: soundness carries it along
the recursion of `expressionTail`, and completeness finds the state in which an expression was read
to its last number. -/

namespace LineTokens.Comparison

variable {ν : Type} {arith : Arithmetic ν}

/-! ### Steps of the reading -/

/-- No expression goes on with these segments. -/
def EndsExpression (rest : List Segment) : Prop :=
  ∀ segment ∈ rest.head?, ∀ op, segment.kind ≠ .operator op

theorem endsExpression_nil : EndsExpression [] := nofun

theorem endsExpression_cons {segment : Segment} {rest : List Segment} :
    EndsExpression (segment :: rest) ↔ ∀ op, segment.kind ≠ .operator op := by
  simp [EndsExpression]

theorem expressionTail_tight {s n : Segment} {op : Operator} {v w u : ν} (pending : Pending ν)
    (kind_eq : s.kind = .operator op) (tight : op.bindsTight = true) (writes : n.Writes arith w)
    (yields : op.Yields arith v w u) (rest : List Segment) :
    expressionTail arith pending v (s :: n :: rest) = expressionTail arith pending u rest := by
  simp only [expressionTail, kind_eq, if_pos tight, Segment.number_eq_ok_iff.mpr writes,
    Operator.apply_eq_ok_iff.mpr yields]

theorem expressionTail_loose {s n : Segment} {op : Operator} {pending : Pending ν} {v w sum : ν}
    (kind_eq : s.kind = .operator op) (loose : op.bindsTight = false)
    (finished : finishTerm arith pending v = .ok sum) (writes : n.Writes arith w)
    (rest : List Segment) :
    expressionTail arith pending v (s :: n :: rest) =
      expressionTail arith (some (sum, op)) w rest := by
  simp only [expressionTail, kind_eq, loose, Bool.false_eq_true, if_false, finished,
    Segment.number_eq_ok_iff.mpr writes]

theorem expressionTail_ends {pending : Pending ν} {v sum : ν} {rest : List Segment}
    (ends : EndsExpression rest) (finished : finishTerm arith pending v = .ok sum) :
    expressionTail arith pending v rest = .ok (sum, rest) := by
  cases rest with
  | nil => simp only [expressionTail, finished]
  | cons segment rest =>
    have hkind := endsExpression_cons.mp ends
    rw [expressionTail]
    split
    · rename_i op hop
      exact absurd hop (hkind op)
    · simp only [finished]

theorem expression_cons {n : Segment} {w : ν} (writes : n.Writes arith w) (rest : List Segment) :
    expression arith (n :: rest) = expressionTail arith none w rest := by
  simp only [expression, Segment.number_eq_ok_iff.mpr writes]

/-! ### What has been read of an expression -/

/-- The segments read so far are a sum that waits for its next term, if one does, and that term up
to the last number read. -/
inductive Underway (arith : Arithmetic ν) : List Segment → Pending ν → ν → Prop
  | first {ts : List Segment} {v : ν} (term : Term arith ts v) : Underway arith ts none v
  | next {ss ts : List Segment} {s : Segment} {op : Operator} {sum v : ν}
      (before : Expression arith ss sum) (kind_eq : s.kind = .operator op)
      (loose : op.bindsTight = false) (term : Term arith ts v) :
      Underway arith (ss ++ s :: ts) (some (sum, op)) v

namespace Underway

variable {read : List Segment} {pending : Pending ν} {v : ν}

theorem finish (h : Underway arith read pending v) {sum : ν}
    (finished : finishTerm arith pending v = .ok sum) : Expression arith read sum := by
  cases h with
  | first term =>
    cases finished
    exact .term term
  | next before kind_eq loose term =>
    exact .extend before kind_eq loose term (Operator.apply_eq_ok_iff.mp finished)

theorem tight (h : Underway arith read pending v) {s n : Segment} {op : Operator} {w u : ν}
    (kind_eq : s.kind = .operator op) (tight : op.bindsTight = true) (writes : n.Writes arith w)
    (yields : op.Yields arith v w u) : Underway arith (read ++ [s, n]) pending u := by
  cases h with
  | first term => exact .first (term.extend kind_eq tight writes yields)
  | next before hkind loose term =>
    rw [List.append_assoc, List.cons_append]
    exact .next before hkind loose (term.extend kind_eq tight writes yields)

theorem loose (h : Underway arith read pending v) {s n : Segment} {op : Operator} {w sum : ν}
    (kind_eq : s.kind = .operator op) (loose : op.bindsTight = false)
    (finished : finishTerm arith pending v = .ok sum) (writes : n.Writes arith w) :
    Underway arith (read ++ [s, n]) (some (sum, op)) w :=
  .next (h.finish finished) kind_eq loose (.number writes)

end Underway

/-! ### Completeness -/

/-- A term is read from its first number on, whatever sum waits for it and whatever follows. -/
theorem Term.read {ts : List Segment} {v : ν} (h : Term arith ts v) :
    ∃ n ns w, ts = n :: ns ∧ n.Writes arith w ∧ ∀ pending rest,
      expressionTail arith pending w (ns ++ rest) = expressionTail arith pending v rest := by
  induction h with
  | @number n v writes => exact ⟨n, [], v, rfl, writes, fun _ _ => rfl⟩
  | @extend _ s n' _ _ _ _ _ kind_eq tight writes' yields ih =>
    obtain ⟨n, ns, w, rfl, writes, hread⟩ := ih
    refine ⟨n, ns ++ [s, n'], w, rfl, writes, fun pending rest => ?_⟩
    rw [List.append_assoc, hread]
    exact expressionTail_tight pending kind_eq tight writes' yields rest

/-- An expression is read to its last number, and what then waits has the expression's value. -/
theorem Expression.read {ss : List Segment} {v : ν} (h : Expression arith ss v) :
    ∃ pending term, finishTerm arith pending term = .ok v ∧
      ∀ rest, expression arith (ss ++ rest) = expressionTail arith pending term rest := by
  induction h with
  | @term _ v term =>
    obtain ⟨n, ns, w, rfl, writes, hread⟩ := term.read
    refine ⟨none, v, rfl, fun rest => ?_⟩
    rw [List.cons_append, expression_cons writes, hread]
  | @extend ss ts s op sum v u _ kind_eq loose term yields ih =>
    obtain ⟨pending, before, finished, hbefore⟩ := ih
    obtain ⟨n, ns, w, rfl, writes, hread⟩ := term.read
    refine ⟨some (sum, op), v, Operator.apply_eq_ok_iff.mpr yields, fun rest => ?_⟩
    rw [List.append_assoc, hbefore, List.cons_append, List.cons_append,
      expressionTail_loose kind_eq loose finished writes, hread]

theorem Expression.expression_append {ss rest : List Segment} {v : ν} (h : Expression arith ss v)
    (ends : EndsExpression rest) : expression arith (ss ++ rest) = .ok (v, rest) := by
  obtain ⟨pending, term, finished, hread⟩ := h.read
  rw [hread, expressionTail_ends ends finished]

/-! ### Soundness -/

theorem expressionTail_sound {pending : Pending ν} {v value : ν} {segs rest : List Segment}
    (h : expressionTail arith pending v segs = .ok (value, rest)) {read : List Segment}
    (underway : Underway arith read pending v) :
    ∃ consumed, segs = consumed ++ rest ∧ Expression arith (read ++ consumed) value ∧
      EndsExpression rest := by
  fun_induction expressionTail arith pending v segs generalizing read with
  -- a failure is no value
  | case1 | case3 | case4 | case5 | case7 | case8 | case9 | case11 => cases h
  -- the end of the line
  | case2 pending v sum finished =>
    cases h
    exact ⟨[], rfl, by simpa using underway.finish finished, endsExpression_nil⟩
  -- a tight operator and a number
  | case6 pending v s op kind_eq tight n segs w hnumber u happly ih =>
    have writes := Segment.number_eq_ok_iff.mp hnumber
    have yields := Operator.apply_eq_ok_iff.mp happly
    obtain ⟨consumed, rfl, hvalue, hends⟩ := ih h (underway.tight kind_eq tight writes yields)
    exact ⟨s :: n :: consumed, rfl, by simpa using hvalue, hends⟩
  -- a loose operator and a number
  | case10 pending v s op kind_eq hloose sum finished n segs w hnumber ih =>
    have loose : op.bindsTight = false := Bool.eq_false_iff.mpr hloose
    have writes := Segment.number_eq_ok_iff.mp hnumber
    obtain ⟨consumed, rfl, hvalue, hends⟩ := ih h (underway.loose kind_eq loose finished writes)
    exact ⟨s :: n :: consumed, rfl, by simpa using hvalue, hends⟩
  -- a segment that is no operator
  | case12 pending v s segs sum finished hkind =>
    cases h
    exact ⟨[], rfl, by simpa using underway.finish finished, endsExpression_cons.mpr hkind⟩

theorem expression_sound {segs rest : List Segment} {v : ν}
    (h : expression arith segs = .ok (v, rest)) :
    ∃ read, segs = read ++ rest ∧ Expression arith read v ∧ EndsExpression rest := by
  cases segs with
  | nil => cases h
  | cons n segs =>
    cases hnumber : n.number arith with
    | error failure =>
      simp only [expression, hnumber] at h
      cases h
    | ok w =>
      have writes := Segment.number_eq_ok_iff.mp hnumber
      rw [expression_cons writes] at h
      obtain ⟨consumed, rfl, hvalue, hends⟩ := expressionTail_sound h (.first (.number writes))
      exact ⟨n :: consumed, rfl, hvalue, hends⟩

/-! ### Lines -/

theorem comparison_eq_ok_iff {segs rest : List Segment} {relation : Relation} {keyword : Segment} :
    comparison segs = .ok ((relation, keyword), rest) ↔
      segs = keyword :: rest ∧ keyword.kind = .comparison relation := by
  constructor
  · intro h
    unfold comparison at h
    split at h
    · cases h
    · split at h
      · rename_i kind_eq
        cases h
        exact ⟨rfl, kind_eq⟩
      · cases h
  · rintro ⟨rfl, kind_eq⟩
    simp only [comparison, kind_eq]

end LineTokens.Comparison
