import LineTokens.Proofs.Comparison.Reading
import LineTokens.Proofs.Comparison.Scan
import Mathlib.Logic.ExistsUnique

/-! The trees of expressions. A list of numbers with operators between them is spelled by one tree
for each way to group it; the one that respects precedence is `Grouped`, and its value, computed
from the leaves up, is the value that reading gives the list. -/

namespace LineTokens.Comparison

variable {ν : Type} {arith : Arithmetic ν}

/-- A number, and any number of times an operator and a number. -/
inductive Alternates : List Segment → Prop
  | number {s : Segment} (kind_eq : s.kind = .number) : Alternates [s]
  | extend {ss : List Segment} {s n : Segment} {op : Operator} (before : Alternates ss)
      (operator : s.kind = .operator op) (number : n.kind = .number) : Alternates (ss ++ [s, n])

theorem Alternates.append {ls rs : List Segment} {s : Segment} {op : Operator}
    (left : Alternates ls) (kind_eq : s.kind = .operator op) (right : Alternates rs) :
    Alternates (ls ++ s :: rs) := by
  induction right with
  | number hnumber => exact .extend left kind_eq hnumber
  | extend _ operator number ih =>
    rw [← List.cons_append, ← List.append_assoc]
    exact .extend ih operator number

/-! ### Trees and their values -/

/-- The higher rank binds tighter. -/
def Operator.rank (op : Operator) : Nat := if op.bindsTight then 1 else 0

theorem Operator.rank_le (op : Operator) : op.rank ≤ 1 := by cases op <;> decide

theorem Operator.rank_pos {op : Operator} : 0 < op.rank ↔ op.bindsTight = true := by
  cases op <;> decide

/-- The operation's result, if it is finite and no quotient by zero. -/
def Operator.result? (arith : Arithmetic ν) (op : Operator) (lhs rhs : ν) : Option ν :=
  if op = .divide ∧ arith.isZero rhs then none
  else (some (op.value arith lhs rhs)).filter arith.isFinite

theorem Operator.result?_eq_some_iff {op : Operator} {lhs rhs value : ν} :
    op.result? arith lhs rhs = some value ↔ op.Yields arith lhs rhs value := by
  rw [result?]
  split
  · rename_i hzero
    constructor
    · intro h
      cases h
    · rintro ⟨hdivisor, -, -⟩
      rw [hdivisor hzero.1] at hzero
      cases hzero.2
  · rename_i hzero
    rw [Option.filter_eq_some_iff, Option.some_inj]
    constructor
    · rintro ⟨hvalue, hfinite⟩
      exact ⟨fun hop => by simpa [hop] using hzero, hvalue, hfinite⟩
    · rintro ⟨-, hvalue, hfinite⟩
      exact ⟨hvalue, hfinite⟩

inductive Tree
  | number (literal : List Char)
  | operation (op : Operator) (lhs rhs : Tree)
deriving DecidableEq, Repr

namespace Tree

/-- The segments are the numbers and operators of the tree from left to right. -/
inductive Spells : Tree → List Segment → Prop
  | number {s : Segment} (kind_eq : s.kind = .number) : Spells (.number s.text) [s]
  | operation {lhs rhs : Tree} {ls rs : List Segment} {s : Segment} {op : Operator}
      (left : Spells lhs ls) (kind_eq : s.kind = .operator op) (right : Spells rhs rs) :
      Spells (.operation op lhs rhs) (ls ++ s :: rs)

/-- A number binds tighter than every operator. -/
def rank : Tree → Nat
  | number _ => 2
  | operation op _ _ => op.rank

/-- No operator has one that binds less tightly below it, nor one as tight in its right operand. -/
def Grouped : Tree → Prop
  | number _ => True
  | operation op lhs rhs =>
    lhs.Grouped ∧ rhs.Grouped ∧ op.rank ≤ lhs.rank ∧ op.rank < rhs.rank

/-- The value of the tree, if every literal has a finite value and every operation a result. -/
def value? (arith : Arithmetic ν) : Tree → Option ν
  | number literal => (arith.ofLiteral? literal).filter arith.isFinite
  | operation op lhs rhs =>
    (lhs.value? arith).bind fun x => (rhs.value? arith).bind fun y => op.result? arith x y

variable {tree lhs rhs : Tree} {ss : List Segment} {op : Operator} {v : ν}

theorem Spells.alternates (h : tree.Spells ss) : Alternates ss := by
  induction h with
  | number kind_eq => exact .number kind_eq
  | operation _ kind_eq _ left right => exact left.append kind_eq right

/-- A number may follow as the right operand of any operator that the tree can stand left of. -/
theorem Grouped.operation_number (h : tree.Grouped) (hle : op.rank ≤ tree.rank)
    (literal : List Char) : (operation op tree (number literal)).Grouped :=
  ⟨h, trivial, hle, Nat.lt_succ_of_le op.rank_le⟩

theorem value?_number_eq_some_iff {s : Segment} (kind_eq : s.kind = .number) :
    (number s.text).value? arith = some v ↔ s.Writes arith v := by
  rw [value?, Option.filter_eq_some_iff]
  exact ⟨fun h => ⟨kind_eq, h.1, h.2⟩, fun h => ⟨h.literal_eq, h.finite⟩⟩

theorem value?_operation_eq_some_iff :
    (operation op lhs rhs).value? arith = some v ↔
      ∃ x, lhs.value? arith = some x ∧
        ∃ y, rhs.value? arith = some y ∧ op.Yields arith x y v := by
  simp only [value?, Option.bind_eq_some_iff, Operator.result?_eq_some_iff]

end Tree

/-! ### Reading computes the value of the tree -/

theorem Term.exists_tree {ss : List Segment} {v : ν} (h : Term arith ss v) :
    ∃ tree : Tree, tree.Grouped ∧ 0 < tree.rank ∧ tree.Spells ss ∧ tree.value? arith = some v := by
  induction h with
  | @number s v writes =>
    exact ⟨.number s.text, trivial, Nat.two_pos, .number writes.kind_eq,
      (Tree.value?_number_eq_some_iff writes.kind_eq).mpr writes⟩
  | @extend ss s n op v w u _ kind_eq tight writes yields ih =>
    obtain ⟨tree, grouped, hrank, spells, hvalue⟩ := ih
    have htight := Operator.rank_pos.mpr tight
    have hle : op.rank ≤ tree.rank := Nat.le_trans op.rank_le hrank
    refine ⟨.operation op tree (.number n.text), grouped.operation_number hle n.text, htight,
      .operation spells kind_eq (.number writes.kind_eq), ?_⟩
    exact Tree.value?_operation_eq_some_iff.mpr
      ⟨v, hvalue, w, (Tree.value?_number_eq_some_iff writes.kind_eq).mpr writes, yields⟩

theorem Expression.exists_tree {ss : List Segment} {v : ν} (h : Expression arith ss v) :
    ∃ tree : Tree, tree.Grouped ∧ tree.Spells ss ∧ tree.value? arith = some v := by
  induction h with
  | term term =>
    obtain ⟨tree, grouped, -, spells, hvalue⟩ := term.exists_tree
    exact ⟨tree, grouped, spells, hvalue⟩
  | @extend ss ts s op v w u _ kind_eq loose term yields ih =>
    obtain ⟨left, hleft, hss, hv⟩ := ih
    obtain ⟨right, hright, hrank, hts, hw⟩ := term.exists_tree
    have hloose : op.rank = 0 := by simp [Operator.rank, loose]
    exact ⟨.operation op left right, ⟨hleft, hright, by omega, by omega⟩,
      .operation hss kind_eq hts, Tree.value?_operation_eq_some_iff.mpr ⟨v, hv, w, hw, yields⟩⟩

/-- A grouped tree is an expression, and a term unless its last operator is loose. -/
theorem Tree.Spells.expression {tree : Tree} {ss : List Segment} {v : ν} (spells : tree.Spells ss)
    (grouped : tree.Grouped) (value : tree.value? arith = some v) :
    Expression arith ss v ∧ (0 < tree.rank → Term arith ss v) := by
  induction spells generalizing v with
  | number kind_eq =>
    have term : Term arith _ v := .number ((Tree.value?_number_eq_some_iff kind_eq).mp value)
    exact ⟨.term term, fun _ => term⟩
  | @operation lhs rhs ls rs s op left kind_eq right ihl ihr =>
    obtain ⟨hl, hr, hle, hlt⟩ := grouped
    obtain ⟨x, hx, y, hy, yields⟩ := Tree.value?_operation_eq_some_iff.mp value
    by_cases tight : op.bindsTight = true
    · have hrank := Operator.rank_pos.mpr tight
      have lterm := (ihl hl hx).2 (by omega)
      -- only a number binds tighter than a tight operator
      cases right with
      | number hnumber =>
        have term := lterm.extend kind_eq tight
          ((Tree.value?_number_eq_some_iff hnumber).mp hy) yields
        exact ⟨.term term, fun _ => term⟩
      | @operation _ _ _ _ _ op' =>
        have := op'.rank_le
        simp only [Tree.rank] at hlt
        omega
    · have rterm := (ihr hr hy).2 (by omega)
      refine ⟨.extend (ihl hl hx).1 kind_eq (by simpa using tight) rterm yields, fun h => ?_⟩
      exact absurd (Operator.rank_pos.mp h) tight

/-- The arithmetic that computes nothing: the value of a tree is the tree. -/
def Tree.arithmetic : Arithmetic Tree where
  ofLiteral? literal := some (.number literal)
  add := .operation .add
  sub := .operation .subtract
  mul := .operation .multiply
  div := .operation .divide
  isZero _ := false
  isFinite _ := true
  equal tree other := tree == other

theorem Tree.value?_arithmetic (tree : Tree) : tree.value? arithmetic = some tree := by
  induction tree with
  | number literal => rfl
  | operation op lhs rhs ihl ihr =>
    rw [value?, ihl, ihr]
    cases op <;> rfl

theorem Alternates.exists_tree {ss : List Segment} (h : Alternates ss) :
    ∃ tree : Tree, tree.Grouped ∧ tree.Spells ss := by
  induction h with
  | number kind_eq => exact ⟨.number _, trivial, .number kind_eq⟩
  | @extend ss s n op _ operator number ih =>
    obtain ⟨tree, grouped, spells⟩ := ih
    have hop := op.rank_le
    by_cases hle : op.rank ≤ tree.rank
    · exact ⟨.operation op tree (.number n.text), grouped.operation_number hle n.text,
        .operation spells operator (.number number)⟩
    · -- a tight operator after a loose one takes the right operand of that one
      cases spells with
      | number => exact absurd (Nat.le_succ_of_le hop) hle
      | @operation lhs rhs ls rs loose op' left kind_eq right =>
        obtain ⟨hl, hr, hlhs, hrhs⟩ := grouped
        have hlt : op'.rank < op.rank := Nat.lt_of_not_le hle
        have hoperand : op.rank ≤ rhs.rank := by omega
        refine ⟨.operation op' lhs (.operation op rhs (.number n.text)),
          ⟨hl, hr.operation_number hoperand n.text, hlhs, hlt⟩, ?_⟩
        rw [List.append_assoc, List.cons_append]
        exact .operation left kind_eq (.operation right operator (.number number))

theorem Tree.Spells.unique {tree other : Tree} {ss : List Segment} (spells : tree.Spells ss)
    (grouped : tree.Grouped) (spells' : other.Spells ss) (grouped' : other.Grouped) :
    tree = other := by
  -- over the arithmetic of trees, reading gives both trees back, and it is a function
  have hread := (spells.expression grouped tree.value?_arithmetic).1.expression_append
    endsExpression_nil
  have hread' := (spells'.expression grouped' other.value?_arithmetic).1.expression_append
    endsExpression_nil
  rw [hread] at hread'
  cases hread'
  rfl

/-- A list of numbers with operators between them is grouped in exactly one way. -/
theorem alternates_iff_existsUnique_tree {ss : List Segment} :
    Alternates ss ↔ ∃! tree : Tree, tree.Grouped ∧ tree.Spells ss := by
  constructor
  · intro h
    obtain ⟨tree, grouped, spells⟩ := h.exists_tree
    exact ⟨tree, ⟨grouped, spells⟩, fun other h => h.2.unique h.1 spells grouped⟩
  · rintro ⟨tree, ⟨-, spells⟩, -⟩
    exact spells.alternates

example : expression Tree.arithmetic (segments "8-3-2*4".toList) =
    .ok (.operation .subtract (.operation .subtract (.number ['8']) (.number ['3']))
      (.operation .multiply (.number ['2']) (.number ['4'])), []) :=
  rfl

/-! ### Lines -/

end LineTokens.Comparison
