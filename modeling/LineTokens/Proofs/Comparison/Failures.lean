import LineTokens.Proofs.Comparison.Reading
import LineTokens.Proofs.Comparison.Scan

/-! What a failure depends on. A reading takes segments from the left and looks at one more than it
takes, so what follows cannot change how it ends. A failure before the end of the line is of the
last segments taken: one that is not what was expected, a literal without a value, a zero divisor,
or operands whose result is not finite. -/

namespace LineTokens.Comparison

variable {ν α β : Type} {arith : Arithmetic ν}

/-! ### One segment of lookahead -/

/-- The segments that a reading leaves. -/
def restOf : Parsed α → List Segment
  | .error stop => stop.rest
  | .ok (_, rest) => rest

def withRest (rest : List Segment) : Parsed α → Parsed α
  | .error stop => .error ⟨stop.failure, rest⟩
  | .ok (a, _) => .ok (a, rest)

/-- The segments taken and the next one decide how the reading ends. -/
def LooksOneAhead (read : List Segment → Parsed α) (segs : List Segment) : Prop :=
  ∃ consumed, segs = consumed ++ restOf (read segs) ∧
    ∀ after, after.head? = (restOf (read segs)).head? →
      read (consumed ++ after) = withRest after (read segs)

theorem eq_nil_of_head? {after : List Segment} (h : after.head? = [].head?) : after = [] :=
  List.head?_eq_none_iff.mp h

theorem eq_cons_of_head? {after rest : List Segment} {segment : Segment}
    (h : after.head? = (segment :: rest).head?) : ∃ more, after = segment :: more :=
  List.head?_eq_some_iff.mp h

/-- Two readings, the second of what the first leaves. -/
def readThen (read : List Segment → Parsed α) (go : α → List Segment → Parsed β)
    (segs : List Segment) : Parsed β :=
  match read segs with
  | .error stop => .error stop
  | .ok (a, rest) => go a rest

theorem readThen_of_error {read : List Segment → Parsed α} {segs : List Segment} {stop : Stop}
    (h : read segs = .error stop) (go : α → List Segment → Parsed β) :
    readThen read go segs = .error stop := by
  rw [readThen, h]

theorem readThen_of_ok {read : List Segment → Parsed α} {segs rest : List Segment} {a : α}
    (h : read segs = .ok (a, rest)) (go : α → List Segment → Parsed β) :
    readThen read go segs = go a rest := by
  rw [readThen, h]

theorem LooksOneAhead.readThen {read : List Segment → Parsed α} {go : α → List Segment → Parsed β}
    {segs : List Segment} (hread : LooksOneAhead read segs)
    (hgo : ∀ a rest, LooksOneAhead (go a) rest) : LooksOneAhead (readThen read go) segs := by
  obtain ⟨taken, hsegs, hafter⟩ := hread
  cases houtcome : read segs with
  | error stop =>
    rw [houtcome] at hsegs hafter
    have hstops := readThen_of_error houtcome go
    refine ⟨taken, by rw [hstops]; exact hsegs, fun after hhead => ?_⟩
    rw [hstops] at hhead ⊢
    exact readThen_of_error (hafter after hhead) go
  | ok parsed =>
    obtain ⟨a, rest⟩ := parsed
    rw [houtcome] at hsegs hafter
    obtain ⟨more, hrest, hmore⟩ := hgo a rest
    have hgoes := readThen_of_ok houtcome go
    refine ⟨taken ++ more, ?_, fun after hhead => ?_⟩
    · rw [hgoes, List.append_assoc, ← hrest]
      exact hsegs
    · rw [hgoes] at hhead ⊢
      -- The first reading sees the same next segment, which may be one that the second one takes.
      have hnext : (more ++ after).head? = rest.head? := by
        rw [hrest]
        cases more with
        | nil => exact hhead
        | cons segment more => rfl
      rw [List.append_assoc, readThen_of_ok (hafter _ hnext) go]
      exact hmore after hhead

theorem expressionTail_looksOneAhead (pending : Pending ν) (term : ν) (segs : List Segment) :
    LooksOneAhead (expressionTail arith pending term) segs := by
  unfold LooksOneAhead
  fun_induction expressionTail arith pending term segs with
  -- at the end of the line
  | case1 pending term failure hfinish | case2 pending term sum hfinish =>
    refine ⟨[], rfl, fun after hhead => ?_⟩
    obtain rfl := eq_nil_of_head? hhead
    simp only [List.append_nil, expressionTail, hfinish, withRest]
  -- an operator at the end
  | case3 pending term s op kind_eq htight =>
    refine ⟨[s], rfl, fun after hhead => ?_⟩
    obtain rfl := eq_nil_of_head? hhead
    simp only [List.append_nil, expressionTail, kind_eq, if_pos htight, withRest]
  | case8 pending term s op kind_eq hloose sum hfinish =>
    refine ⟨[s], rfl, fun after hhead => ?_⟩
    obtain rfl := eq_nil_of_head? hhead
    simp only [List.append_nil, expressionTail, kind_eq, if_neg hloose, hfinish, withRest]
  -- a failure of the operand, or of a tight operation
  | case4 pending term s op kind_eq htight n rest failure hnumber =>
    refine ⟨[s, n], rfl, fun after _ => ?_⟩
    simp only [List.cons_append, List.nil_append, expressionTail, kind_eq, if_pos htight, hnumber,
      withRest]
  | case5 pending term s op kind_eq htight n rest w hnumber failure happly =>
    refine ⟨[s, n], rfl, fun after _ => ?_⟩
    simp only [List.cons_append, List.nil_append, expressionTail, kind_eq, if_pos htight, hnumber,
      happly, withRest]
  | case9 pending term s op kind_eq hloose sum hfinish n rest failure hnumber =>
    refine ⟨[s, n], rfl, fun after _ => ?_⟩
    simp only [List.cons_append, List.nil_append, expressionTail, kind_eq, if_neg hloose, hfinish,
      hnumber, withRest]
  -- a number read
  | case6 pending term s op kind_eq htight n rest w hnumber u happly ih =>
    obtain ⟨consumed, hrest, hafter⟩ := ih
    refine ⟨s :: n :: consumed, by rw [List.cons_append, List.cons_append, ← hrest],
      fun after hhead => ?_⟩
    rw [← hafter after hhead]
    simp only [List.cons_append, expressionTail, kind_eq, if_pos htight, hnumber, happly]
  | case10 pending term s op kind_eq hloose sum hfinish n rest w hnumber ih =>
    obtain ⟨consumed, hrest, hafter⟩ := ih
    refine ⟨s :: n :: consumed, by rw [List.cons_append, List.cons_append, ← hrest],
      fun after hhead => ?_⟩
    rw [← hafter after hhead]
    simp only [List.cons_append, expressionTail, kind_eq, if_neg hloose, hfinish, hnumber]
  -- the sum is formed, or fails, at a segment that is only looked at
  | case7 pending term s rest op kind_eq hloose failure hfinish =>
    refine ⟨[], rfl, fun after hhead => ?_⟩
    obtain ⟨more, rfl⟩ := eq_cons_of_head? hhead
    simp only [List.nil_append, expressionTail, kind_eq, if_neg hloose, hfinish, withRest]
  | case11 pending term s rest failure hfinish hkind
  | case12 pending term s rest sum hfinish hkind =>
    refine ⟨[], rfl, fun after hhead => ?_⟩
    obtain ⟨more, rfl⟩ := eq_cons_of_head? hhead
    rw [List.nil_append, expressionTail]
    split
    · rename_i op hop
      exact absurd hop (hkind op)
    · simp only [hfinish, withRest]

theorem expression_looksOneAhead (segs : List Segment) :
    LooksOneAhead (expression arith) segs := by
  cases segs with
  | nil =>
    refine ⟨[], rfl, fun after hhead => ?_⟩
    obtain rfl := eq_nil_of_head? hhead
    rfl
  | cons n rest =>
    cases hnumber : n.number arith with
    | error failure =>
      have hstops (after : List Segment) :
          expression arith (n :: after) = .error ⟨failure, after⟩ := by
        simp only [expression, hnumber]
      refine ⟨[n], by rw [hstops]; rfl, fun after _ => ?_⟩
      rw [List.singleton_append, hstops, hstops]
      rfl
    | ok term =>
      have hgoes (after : List Segment) :
          expression arith (n :: after) = expressionTail arith none term after := by
        simp only [expression, hnumber]
      have hlooks : LooksOneAhead (expressionTail arith none term) rest :=
        expressionTail_looksOneAhead none term rest
      obtain ⟨consumed, hrest, hafter⟩ := hlooks
      refine ⟨n :: consumed, by rw [hgoes, List.cons_append, ← hrest], fun after hhead => ?_⟩
      rw [hgoes] at hhead ⊢
      rw [List.cons_append, hgoes]
      exact hafter after hhead

theorem comparison_looksOneAhead (segs : List Segment) : LooksOneAhead comparison segs := by
  unfold LooksOneAhead
  fun_cases comparison segs with
  | case1 =>
    refine ⟨[], rfl, fun after hhead => ?_⟩
    obtain rfl := eq_nil_of_head? hhead
    rfl
  | case2 s rest relation kind_eq =>
    refine ⟨[s], rfl, fun after _ => ?_⟩
    simp only [List.singleton_append, comparison, kind_eq, withRest]
  | case3 s rest hkind =>
    refine ⟨[s], rfl, fun after _ => ?_⟩
    rw [List.singleton_append, comparison]
    split
    · rename_i relation hrelation
      exact absurd hrelation (hkind relation)
    · rfl

/-- The last step of reading a line: no segment may be left. -/
def ended (a : α) : List Segment → Parsed α
  | [] => .ok (a, [])
  | extra :: rest => .error ⟨.trailing extra.text extra.column, extra :: rest⟩

theorem ended_looksOneAhead (a : α) (segs : List Segment) : LooksOneAhead (ended a) segs := by
  cases segs with
  | nil =>
    refine ⟨[], rfl, fun after hhead => ?_⟩
    obtain rfl := eq_nil_of_head? hhead
    rfl
  | cons extra rest =>
    refine ⟨[], rfl, fun after hhead => ?_⟩
    obtain ⟨more, rfl⟩ := eq_cons_of_head? hhead
    rfl

/-- Reading a line as readings one after the other. -/
def readLine (arith : Arithmetic ν) : List Segment → Parsed (Segment × Bool) :=
  readThen (expression arith) fun lhs =>
    readThen comparison fun (relation, keyword) =>
      readThen (expression arith) fun rhs => ended (keyword, relation.holds arith lhs rhs)

theorem readLine_looksOneAhead (segs : List Segment) : LooksOneAhead (readLine arith) segs :=
  (expression_looksOneAhead segs).readThen fun _ rest =>
    (comparison_looksOneAhead rest).readThen fun _ rest =>
      (expression_looksOneAhead rest).readThen fun _ rest => ended_looksOneAhead _ rest

theorem parseSegments_eq_readLine (segs : List Segment) :
    parseSegments arith segs = (readLine arith segs).map Prod.fst := by
  simp only [parseSegments, readLine, readThen]
  cases expression arith segs with
  | error stop => rfl
  | ok parsed =>
    obtain ⟨lhs, rest⟩ := parsed
    simp only [bind, Except.bind]
    cases comparison rest with
    | error stop => rfl
    | ok parsed =>
      obtain ⟨⟨relation, keyword⟩, rest⟩ := parsed
      simp only
      cases expression arith rest with
      | error stop => rfl
      | ok parsed =>
        obtain ⟨rhs, rest⟩ := parsed
        cases rest with
        | nil => rfl
        | cons extra rest => rfl

theorem parseSegments_eq_error_iff {segs : List Segment} {stop : Stop} :
    parseSegments arith segs = .error stop ↔ readLine arith segs = .error stop := by
  rw [parseSegments_eq_readLine]
  cases readLine arith segs with
  | error stop' => simp [Except.map]
  | ok parsed => simp [Except.map]

/-- A line that fails before its last segment fails in every line that is the same up to there. -/
theorem parseSegments_error_of_next {consumed rest after : List Segment} {failure : ParseFailure}
    (h : parseSegments arith (consumed ++ rest) = .error ⟨failure, rest⟩)
    (hhead : after.head? = rest.head?) :
    parseSegments arith (consumed ++ after) = .error ⟨failure, after⟩ := by
  rw [parseSegments_eq_error_iff] at h ⊢
  have hlooks : LooksOneAhead (readLine arith) (consumed ++ rest) := readLine_looksOneAhead _
  obtain ⟨taken, htaken, hafter⟩ := hlooks
  rw [h] at htaken hafter
  have hconsumed : consumed = taken := List.append_cancel_right htaken
  rw [hconsumed]
  exact hafter after hhead

theorem parseSegments_error_of_take {read rest other : List Segment} {failure : ParseFailure}
    (h : parseSegments arith (read ++ rest) = .error ⟨failure, rest⟩)
    (hsame : other.take (read.length + 1) = (read ++ rest).take (read.length + 1)) :
    parseSegments arith other = .error ⟨failure, other.drop read.length⟩ := by
  have hread : other.take read.length = read := by
    have htake := congrArg (List.take read.length) hsame
    rwa [List.take_take, List.take_take, Nat.min_eq_left (Nat.le_succ _), List.take_left] at htake
  have hhead : (other.drop read.length).head? = rest.head? := by
    have hnext := congrArg (fun segs => segs[read.length]?) hsame
    simpa [List.getElem?_take, List.getElem?_append_right, List.head?_eq_getElem?] using hnext
  have hother := (List.take_append_drop read.length other).symm
  rw [hread] at hother
  have hstop := parseSegments_error_of_next h hhead
  rwa [← hother] at hstop

/-! ### What has been read when a reading stops -/

theorem Segment.number_eq_error {s : Segment} {failure : ParseFailure}
    (h : s.number arith = .error failure) :
    s.kind ≠ .number ∧ failure = .unexpected .number s.text s.column ∨
      s.kind = .number ∧ (∀ v, ¬ s.Writes arith v) ∧ failure = .invalidNumber s.text := by
  have hnone : ∀ v, ¬ s.Writes arith v := by
    intro v hwrites
    rw [Segment.number_eq_ok_iff.mpr hwrites] at h
    cases h
  unfold Segment.number at h
  split at h
  · rename_i kind_eq
    refine .inr ⟨kind_eq, hnone, ?_⟩
    split at h
    · split at h
      · cases h
      · cases h
        rfl
    · cases h
      rfl
  · rename_i kind_ne
    cases h
    exact .inl ⟨kind_ne, rfl⟩

theorem Operator.apply_eq_error {op : Operator} {lhs rhs : ν} {failure : ParseFailure}
    (h : op.apply arith lhs rhs = .error failure) :
    op = .divide ∧ arith.isZero rhs = true ∧ failure = .divisionByZero ∨
      (op = .divide → arith.isZero rhs = false) ∧
        arith.isFinite (op.value arith lhs rhs) = false ∧ failure = .nonFinite := by
  unfold Operator.apply at h
  split at h
  · rename_i hzero
    cases h
    exact .inl ⟨hzero.1, hzero.2, rfl⟩
  · rename_i hzero
    split at h
    · cases h
    · rename_i hinfinite
      cases h
      exact .inr ⟨fun hop => by simpa [hop] using hzero, Bool.eq_false_iff.mpr hinfinite, rfl⟩

/-- What has been read of an expression when a number has to follow. -/
inductive AwaitsNumber (arith : Arithmetic ν) : List Segment → Prop
  | start : AwaitsNumber arith []
  | tight {read : List Segment} {pending : Pending ν} {s : Segment} {op : Operator} {v : ν}
      (underway : Underway arith read pending v) (kind_eq : s.kind = .operator op)
      (tight : op.bindsTight = true) : AwaitsNumber arith (read ++ [s])
  | loose {read : List Segment} {s : Segment} {op : Operator} {v : ν}
      (before : Expression arith read v) (kind_eq : s.kind = .operator op)
      (loose : op.bindsTight = false) : AwaitsNumber arith (read ++ [s])

/-- No term goes on with these segments. -/
def EndsTerm (rest : List Segment) : Prop :=
  ∀ segment ∈ rest.head?, ∀ op, segment.kind = .operator op → op.bindsTight = false

theorem EndsExpression.endsTerm {rest : List Segment} (h : EndsExpression rest) : EndsTerm rest :=
  fun segment hmem op kind_eq => absurd kind_eq (h segment hmem op)

/-- What has been read of an expression, what is left and the failure when its reading fails. -/
inductive StopsExpression (arith : Arithmetic ν) :
    List Segment → List Segment → ParseFailure → Prop
  | ended {read : List Segment} (awaits : AwaitsNumber arith read) :
      StopsExpression arith read [] (.unexpectedEnd .number)
  | noNumber {read rest : List Segment} {s : Segment} (awaits : AwaitsNumber arith read)
      (kind_ne : s.kind ≠ .number) :
      StopsExpression arith (read ++ [s]) rest (.unexpected .number s.text s.column)
  | noValue {read rest : List Segment} {s : Segment} (awaits : AwaitsNumber arith read)
      (kind_eq : s.kind = .number) (valueless : ∀ v, ¬ s.Writes arith v) :
      StopsExpression arith (read ++ [s]) rest (.invalidNumber s.text)
  | divisor {read rest : List Segment} {pending : Pending ν} {s n : Segment} {v w : ν}
      (underway : Underway arith read pending v) (kind_eq : s.kind = .operator .divide)
      (writes : n.Writes arith w) (zero : arith.isZero w = true) :
      StopsExpression arith (read ++ [s, n]) rest .divisionByZero
  | term {read rest : List Segment} {pending : Pending ν} {s n : Segment} {op : Operator} {v w : ν}
      (underway : Underway arith read pending v) (kind_eq : s.kind = .operator op)
      (tight : op.bindsTight = true) (writes : n.Writes arith w)
      (divisor : op = .divide → arith.isZero w = false)
      (infinite : arith.isFinite (op.value arith v w) = false) :
      StopsExpression arith (read ++ [s, n]) rest .nonFinite
  | sum {read rest : List Segment} {op : Operator} {v w : ν}
      (underway : Underway arith read (some (v, op)) w) (ends : EndsTerm rest)
      (infinite : arith.isFinite (op.value arith v w) = false) :
      StopsExpression arith read rest .nonFinite

namespace StopsExpression

variable {read rest : List Segment} {pending : Pending ν} {v : ν} {failure : ParseFailure}

theorem of_number {s : Segment} (awaits : AwaitsNumber arith read)
    (h : s.number arith = .error failure) : StopsExpression arith (read ++ [s]) rest failure := by
  rcases Segment.number_eq_error h with ⟨kind_ne, rfl⟩ | ⟨kind_eq, valueless, rfl⟩
  · exact .noNumber awaits kind_ne
  · exact .noValue awaits kind_eq valueless

theorem of_apply {s n : Segment} {op : Operator} {w : ν} (underway : Underway arith read pending v)
    (kind_eq : s.kind = .operator op) (tight : op.bindsTight = true) (writes : n.Writes arith w)
    (h : op.apply arith v w = .error failure) :
    StopsExpression arith (read ++ [s, n]) rest failure := by
  rcases Operator.apply_eq_error h with ⟨rfl, zero, rfl⟩ | ⟨divisor, infinite, rfl⟩
  · exact .divisor underway kind_eq writes zero
  · exact .term underway kind_eq tight writes divisor infinite

theorem of_finishTerm (underway : Underway arith read pending v) (ends : EndsTerm rest)
    (h : finishTerm arith pending v = .error failure) :
    StopsExpression arith read rest failure := by
  cases underway with
  | first term => cases h
  | next before kind_eq loose term =>
    rcases Operator.apply_eq_error h with ⟨rfl, -, -⟩ | ⟨-, infinite, rfl⟩
    · cases loose
    · exact .sum (.next before kind_eq loose term) ends infinite

end StopsExpression

theorem expressionTail_stops {pending : Pending ν} {v : ν} {segs rest : List Segment}
    {failure : ParseFailure} (h : expressionTail arith pending v segs = .error ⟨failure, rest⟩)
    {read : List Segment} (underway : Underway arith read pending v) :
    ∃ consumed, segs = consumed ++ rest ∧
      StopsExpression arith (read ++ consumed) rest failure := by
  fun_induction expressionTail arith pending v segs generalizing read with
  -- a value is no failure
  | case2 | case12 => cases h
  -- the sum fails at the end of the line, or before the segment looked at
  | case1 pending v failure hfinish =>
    cases h
    exact ⟨[], rfl, by simpa using .of_finishTerm underway endsExpression_nil.endsTerm hfinish⟩
  | case7 pending v s segs op kind_eq hloose failure hfinish =>
    cases h
    have ends : EndsTerm (s :: segs) := by
      simp [EndsTerm, kind_eq, hloose]
    exact ⟨[], rfl, by simpa using .of_finishTerm underway ends hfinish⟩
  | case11 pending v s segs failure hfinish hkind =>
    cases h
    have ends : EndsTerm (s :: segs) := (endsExpression_cons.mpr hkind).endsTerm
    exact ⟨[], rfl, by simpa using .of_finishTerm underway ends hfinish⟩
  -- an operator at the end
  | case3 pending v s op kind_eq tight =>
    cases h
    exact ⟨[s], rfl, .ended (.tight underway kind_eq tight)⟩
  | case8 pending v s op kind_eq hloose sum hfinish =>
    cases h
    exact ⟨[s], rfl, .ended (.loose (underway.finish hfinish) kind_eq (by simpa using hloose))⟩
  -- the operand or the tight operation fails
  | case4 pending v s op kind_eq tight n segs failure hnumber =>
    cases h
    refine ⟨[s, n], rfl, ?_⟩
    simpa using StopsExpression.of_number (.tight underway kind_eq tight) hnumber
  | case9 pending v s op kind_eq hloose sum hfinish n segs failure hnumber =>
    cases h
    refine ⟨[s, n], rfl, ?_⟩
    simpa using StopsExpression.of_number
      (.loose (underway.finish hfinish) kind_eq (by simpa using hloose)) hnumber
  | case5 pending v s op kind_eq tight n segs w hnumber failure happly =>
    cases h
    have writes := Segment.number_eq_ok_iff.mp hnumber
    exact ⟨[s, n], rfl, .of_apply underway kind_eq tight writes happly⟩
  -- a number read
  | case6 pending v s op kind_eq tight n segs w hnumber u happly ih =>
    have writes := Segment.number_eq_ok_iff.mp hnumber
    have yields := Operator.apply_eq_ok_iff.mp happly
    obtain ⟨consumed, rfl, hstops⟩ := ih h (underway.tight kind_eq tight writes yields)
    exact ⟨s :: n :: consumed, rfl, by simpa using hstops⟩
  | case10 pending v s op kind_eq hloose sum hfinish n segs w hnumber ih =>
    have loose : op.bindsTight = false := Bool.eq_false_iff.mpr hloose
    have writes := Segment.number_eq_ok_iff.mp hnumber
    obtain ⟨consumed, rfl, hstops⟩ := ih h (underway.loose kind_eq loose hfinish writes)
    exact ⟨s :: n :: consumed, rfl, by simpa using hstops⟩

theorem expression_stops {segs rest : List Segment} {failure : ParseFailure}
    (h : expression arith segs = .error ⟨failure, rest⟩) :
    ∃ read, segs = read ++ rest ∧ StopsExpression arith read rest failure := by
  cases segs with
  | nil =>
    cases h
    exact ⟨[], rfl, .ended .start⟩
  | cons n segs =>
    cases hnumber : n.number arith with
    | error failure =>
      simp only [expression, hnumber] at h
      cases h
      exact ⟨[n], rfl, .of_number .start hnumber⟩
    | ok w =>
      have writes := Segment.number_eq_ok_iff.mp hnumber
      rw [expression_cons writes] at h
      obtain ⟨consumed, rfl, hstops⟩ := expressionTail_stops h (.first (.number writes))
      exact ⟨n :: consumed, rfl, hstops⟩

theorem comparison_stops {segs rest : List Segment} {failure : ParseFailure}
    (h : comparison segs = .error ⟨failure, rest⟩) :
    segs = [] ∧ rest = [] ∧ failure = .unexpectedEnd .keyword ∨
      ∃ s, segs = s :: rest ∧ (∀ relation, s.kind ≠ .comparison relation) ∧
        failure = .unexpected .keyword s.text s.column := by
  unfold comparison at h
  split at h
  · cases h
    exact .inl ⟨rfl, rfl, rfl⟩
  · split at h
    · cases h
    · rename_i segs _ hkind
      cases h
      exact .inr ⟨_, rfl, hkind, rfl⟩

/-- What has been read of a line, what is left and the failure when its reading fails. -/
inductive StopsLine (arith : Arithmetic ν) : List Segment → List Segment → ParseFailure → Prop
  | left {read rest : List Segment} {failure : ParseFailure}
      (stops : StopsExpression arith read rest failure) : StopsLine arith read rest failure
  | ended {left : List Segment} {v : ν} (value : Expression arith left v) :
      StopsLine arith left [] (.unexpectedEnd .keyword)
  | noKeyword {left rest : List Segment} {s : Segment} {v : ν} (value : Expression arith left v)
      (kind_ne : ∀ relation, s.kind ≠ .comparison relation) :
      StopsLine arith (left ++ [s]) rest (.unexpected .keyword s.text s.column)
  | right {left read rest : List Segment} {keyword : Segment} {relation : Relation} {v : ν}
      {failure : ParseFailure} (value : Expression arith left v)
      (kind_eq : keyword.kind = .comparison relation)
      (stops : StopsExpression arith read rest failure) :
      StopsLine arith (left ++ keyword :: read) rest failure
  | trailing {read rest : List Segment} {keyword extra : Segment} {outcome : Bool}
      (compares : Compares arith read keyword outcome) :
      StopsLine arith read (extra :: rest) (.trailing extra.text extra.column)

theorem bind_eq_error {ε α β : Type} {x : Except ε α} {f : α → Except ε β} {e : ε}
    (h : x >>= f = .error e) : x = .error e ∨ ∃ a, x = .ok a ∧ f a = .error e := by
  cases x with
  | error e' =>
    cases h
    exact .inl rfl
  | ok a => exact .inr ⟨a, rfl, h⟩

theorem parseSegments_stops {segs rest : List Segment} {failure : ParseFailure}
    (h : parseSegments arith segs = .error ⟨failure, rest⟩) :
    ∃ read, segs = read ++ rest ∧ StopsLine arith read rest failure := by
  rcases bind_eq_error h with hleft | ⟨⟨lhs, segs'⟩, hleft, hline⟩
  · obtain ⟨read, rfl, hstops⟩ := expression_stops hleft
    exact ⟨read, rfl, .left hstops⟩
  obtain ⟨left, rfl, hlhs, -⟩ := expression_sound hleft
  rcases bind_eq_error hline with hkeyword | ⟨⟨⟨relation, keyword⟩, segs''⟩, hkeyword, hside⟩
  · rcases comparison_stops hkeyword with ⟨rfl, rfl, rfl⟩ | ⟨s, rfl, kind_ne, rfl⟩
    · exact ⟨left, rfl, .ended hlhs⟩
    · exact ⟨left ++ [s], by simp, .noKeyword hlhs kind_ne⟩
  obtain ⟨rfl, kind_eq⟩ := comparison_eq_ok_iff.mp hkeyword
  rcases bind_eq_error hside with hright | ⟨⟨rhs, rest'⟩, hright, hend⟩
  · obtain ⟨read, rfl, hstops⟩ := expression_stops hright
    exact ⟨left ++ keyword :: read, by simp, .right hlhs kind_eq hstops⟩
  obtain ⟨right, rfl, hrhs, -⟩ := expression_sound hright
  cases rest' with
  | nil => cases hend
  | cons extra rest' =>
    cases hend
    exact ⟨left ++ keyword :: right, by simp, .trailing ⟨hlhs, kind_eq, hrhs⟩⟩

/-! ### Failures of lines -/

theorem StopsExpression.unexpected {read rest : List Segment} {expected : Expected}
    {found : List Char} {column : Nat}
    (h : StopsExpression arith read rest (.unexpected expected found column)) :
    ∃ before s, read = before ++ [s] ∧ found = s.text ∧ column = s.column := by
  cases h with
  | noNumber awaits kind_ne => exact ⟨_, _, rfl, rfl, rfl⟩

namespace StopsLine

variable {read rest : List Segment} {failure : ParseFailure}

theorem unexpected {expected : Expected} {found : List Char} {column : Nat}
    (h : StopsLine arith read rest (.unexpected expected found column)) :
    ∃ before s, read = before ++ [s] ∧ found = s.text ∧ column = s.column := by
  cases h with
  | left stops => exact stops.unexpected
  | noKeyword value kind_ne => exact ⟨_, _, rfl, rfl, rfl⟩
  | @right left _ _ keyword _ _ _ value kind_eq stops =>
    obtain ⟨before, s, rfl, hfound, hcolumn⟩ := stops.unexpected
    exact ⟨left ++ keyword :: before, s, by simp, hfound, hcolumn⟩

theorem trailing_eq {found : List Char} {column : Nat}
    (h : StopsLine arith read rest (.trailing found column)) :
    ∃ s more, rest = s :: more ∧ found = s.text ∧ column = s.column := by
  cases h with
  | left stops => cases stops
  | right value kind_eq stops => cases stops
  | trailing compares => exact ⟨_, _, rfl, rfl, rfl⟩

end StopsLine

theorem parseLineWith_eq_error_iff {line : Nat} {text : List Char} {failure : ParseFailure} :
    parseLineWith arith line text = .error failure ↔
      ∃ rest, parseSegments arith (segments text) = .error ⟨failure, rest⟩ := by
  rw [parseLineWith]
  cases parseSegments arith (segments text) with
  | error stop =>
    obtain ⟨failure', rest⟩ := stop
    simp
  | ok parsed => simp

/-- A failure names a segment of the line by its characters and its column. -/
structure Names (text : List Char) (i : Nat) (found : List Char) (column : Nat) : Prop where
  segment : ∃ s, (segments text)[i]? = some s ∧ found = s.text ∧ column = s.column
  span : (text.drop column).take found.length = found

theorem names_of_getElem? {text : List Char} {i : Nat} {s : Segment}
    (h : (segments text)[i]? = some s) : Names text i s.text s.column where
  segment := ⟨s, h, rfl, rfl⟩
  span := span_of_mem_segments (List.mem_of_getElem? h)

/-- The first failure from the left is the one of the line. With `n` segments consumed, the next one
is all else it depends on: a line with the same `n + 1` segments fails in the same way, whatever
follows them. What was consumed is without failure up to its last segments, and those are wrong in
the way that the failure says. -/
theorem first_failure_wins {line : Nat} {text : List Char} {failure : ParseFailure}
    (h : parseLineWith arith line text = .error failure) :
    ∃ n, n ≤ (segments text).length ∧
      parseSegments arith (segments text) = .error ⟨failure, (segments text).drop n⟩ ∧
      (n < (segments text).length → ∀ line' other,
        (segments other).take (n + 1) = (segments text).take (n + 1) →
          parseLineWith arith line' other = .error failure) ∧
      StopsLine arith ((segments text).take n) ((segments text).drop n) failure ∧
      (n = (segments text).length → ∀ found column, failure ≠ .trailing found column) ∧
      (∀ expected found column, failure = .unexpected expected found column →
        0 < n ∧ Names text (n - 1) found column) ∧
      ∀ found column, failure = .trailing found column → Names text n found column := by
  obtain ⟨rest, hstop⟩ := parseLineWith_eq_error_iff.mp h
  obtain ⟨read, hsegs, hstops⟩ := parseSegments_stops hstop
  have htake : (segments text).take read.length = read := by
    rw [hsegs, List.take_left]
  have hdrop : (segments text).drop read.length = rest := by
    rw [hsegs, List.drop_left]
  have hlength : (segments text).length = read.length + rest.length := by
    rw [hsegs, List.length_append]
  refine ⟨read.length, by omega, by rw [hdrop, hstop], fun hlt line' other hsame => ?_,
    by rwa [htake, hdrop], fun hall found column hfailure => ?_,
    fun expected found column hfailure => ?_, fun found column hfailure => ?_⟩
  · rw [parseLineWith_eq_error_iff]
    exact ⟨_, parseSegments_error_of_take (hsegs ▸ hstop) (hsegs ▸ hsame)⟩
  · subst hfailure
    obtain ⟨s, more, hrest, -⟩ := hstops.trailing_eq
    rw [hrest, List.length_cons] at hlength
    omega
  · subst hfailure
    obtain ⟨before, s, rfl, rfl, rfl⟩ := hstops.unexpected
    refine ⟨by simp, names_of_getElem? ?_⟩
    simp [hsegs]
  · subst hfailure
    obtain ⟨s, more, rfl, rfl, rfl⟩ := hstops.trailing_eq
    exact names_of_getElem? (by simp [hsegs])

/-- Natural numbers, of which those below a bound are finite. -/
def boundedArithmetic (bound : Nat) : Arithmetic Nat where
  ofLiteral? literal := some (Decimal.digitsValue literal)
  add := Nat.add
  sub := Nat.sub
  mul := Nat.mul
  div := Nat.div
  isZero n := n == 0
  isFinite n := decide (n < bound)
  equal n m := n == m

/-- A sum that is too large fails before any failure to its right, once the next segment shows that
its last term is complete; with `*` as that segment, the sum is another one. -/
theorem first_failure_wins_sum_too_large :
    parseLineWith (boundedArithmetic 100) 0 "60+50 EQUALS 1/0".toList = .error .nonFinite ∧
      parseLineWith (boundedArithmetic 100) 7 "60+50 EQUALS *".toList = .error .nonFinite ∧
      parseLineWith (boundedArithmetic 100) 0 "60+50*0 EQUALS 60".toList =
        .ok ⟨0, 8, 6, .holds⟩ := by
  have hfails : parseLineWith (boundedArithmetic 100) 0 "60+50 EQUALS 1/0".toList =
      .error .nonFinite := rfl
  obtain ⟨n, hle, hstop, hothers, -⟩ := first_failure_wins hfails
  have hconsumed : parseSegments (boundedArithmetic 100) (segments "60+50 EQUALS 1/0".toList) =
      .error ⟨.nonFinite, (segments "60+50 EQUALS 1/0".toList).drop 3⟩ := rfl
  have hlength : (segments "60+50 EQUALS 1/0".toList).length = 7 := by decide +kernel
  have hrest : (segments "60+50 EQUALS 1/0".toList).drop n =
      (segments "60+50 EQUALS 1/0".toList).drop 3 := by
    rw [hconsumed] at hstop
    injection hstop with hstop
    injection hstop with _ hrest
    exact hrest.symm
  have hn : n = 3 := by
    have hlengths := congrArg List.length hrest
    rw [List.length_drop, List.length_drop] at hlengths
    omega
  subst hn
  have hsame : (segments "60+50 EQUALS *".toList).take 4 =
      (segments "60+50 EQUALS 1/0".toList).take 4 := by decide +kernel
  exact ⟨hfails, hothers (by omega) 7 "60+50 EQUALS *".toList hsame, rfl⟩

end LineTokens.Comparison
