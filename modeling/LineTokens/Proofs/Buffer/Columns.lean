import LineTokens.Proofs.Buffer.Refinement

/-! Batches whose edits keep apart on each line. Worked off by descending column, every edit finds
the line up to its own end as it was before the batch. So its range is checked against the line
before the batch, each line becomes what replacing all its ranges at once makes of it, and the
order of the batch does not matter. -/

namespace LineTokens

namespace Edit

/-- The edit starts and ends before the other one, on the same line. -/
structure Precedes (edit other : Edit) : Prop where
  column_lt : edit.column < other.column
  stop_le : edit.stop ≤ other.column

/-- On one line, one of the edits precedes the other. -/
def Apart (edit other : Edit) : Prop :=
  edit.line = other.line → edit.Precedes other ∨ other.Precedes edit

instance (edit other : Edit) : Decidable (edit.Precedes other) :=
  decidable_of_iff (edit.column < other.column ∧ edit.stop ≤ other.column)
    ⟨fun h => ⟨h.1, h.2⟩, fun h => ⟨h.column_lt, h.stop_le⟩⟩

instance : DecidableRel Apart := fun edit other =>
  inferInstanceAs (Decidable (edit.line = other.line → edit.Precedes other ∨ other.Precedes edit))

/-- The edit's line exists and is long enough for it. -/
def Fits (lines : List (List Char)) (edit : Edit) : Prop :=
  ∃ line, lines[edit.line]? = some line ∧ edit.stop ≤ line.length

/-- What stands in a column of a line after edits that all refer to the line itself: the text put in
there, and the character of the column unless an edit removes it. -/
def substituteAt (edits : List Edit) (text : List Char) (column : Nat) : List Char :=
  (edits.filter (·.column == column)).flatMap (·.inserted) ++
    if edits.any fun edit => edit.column ≤ column && column < edit.stop then []
    else text[column]?.toList

/-- A line with all edits done at once; text can be put in after the last character too. -/
def substitute (edits : List Edit) (text : List Char) : List Char :=
  (List.range (text.length + 1)).flatMap (substituteAt edits text)

/-- Lines with all edits done at once. -/
def substituteLines (edits : List Edit) (lines : List (List Char)) : List (List Char) :=
  lines.mapIdx fun number line => substitute (edits.filter (·.line == number)) line

theorem Apart.symm {edit other : Edit} (h : edit.Apart other) : other.Apart edit :=
  fun hline => (h hline.symm).symm

/-! ### All edits of a line at once -/

section Line

variable {edits : List Edit} {text : List Char}

/-- A line from a column on, with all edits done at once. -/
def substituteFrom (edits : List Edit) (text : List Char) (column : Nat) : List Char :=
  (List.range' column (text.length + 1 - column)).flatMap (substituteAt edits text)

theorem flatMap_column (text : List Char) (column count : Nat) :
    (List.range' column count).flatMap (fun i => text[i]?.toList) =
      (text.drop column).take count := by
  induction count generalizing column with
  | zero => simp
  | succ count ih =>
    rw [List.range'_succ, List.flatMap_cons, ih]
    cases hchar : text[column]? with
    | none =>
      have hlength : text.length ≤ column := List.getElem?_eq_none_iff.mp hchar
      rw [List.drop_eq_nil_of_le hlength, List.drop_eq_nil_of_le (by omega)]
      simp
    | some c =>
      obtain ⟨hlt, rfl⟩ := List.getElem?_eq_some_iff.mp hchar
      rw [List.drop_eq_getElem_cons hlt, List.take_succ_cons]
      rfl

theorem filter_column_eq_nil {column : Nat} (h : ∀ edit ∈ edits, column < edit.column) :
    edits.filter (·.column == column) = [] := by
  rw [List.filter_eq_nil_iff]
  intro edit hedit heq
  have := h edit hedit
  simp at heq
  omega

theorem any_removes_eq_false {column : Nat} (h : ∀ edit ∈ edits, column < edit.column) :
    (edits.any fun edit => edit.column ≤ column && column < edit.stop) = false := by
  rw [List.any_eq_false]
  intro edit hedit heq
  have := h edit hedit
  simp at heq
  omega

/-- Columns before all edits keep their characters. -/
theorem substituteAt_of_lt {column : Nat} (h : ∀ edit ∈ edits, column < edit.column) :
    substituteAt edits text column = text[column]?.toList := by
  rw [substituteAt, filter_column_eq_nil h, any_removes_eq_false h]
  rfl

/-- The line up to a column that no edit starts before is kept. -/
theorem substitute_eq_append {column : Nat} (h : ∀ edit ∈ edits, column ≤ edit.column)
    (hcolumn : column ≤ text.length) :
    substitute edits text = text.take column ++ substituteFrom edits text column := by
  have hrange : List.range (text.length + 1) =
      List.range' 0 column ++ List.range' column (text.length + 1 - column) := by
    have hsum : text.length + 1 = column + (text.length + 1 - column) := by omega
    rw [List.range_eq_range', hsum, ← List.range'_append_1, Nat.zero_add]
    congr 2
    omega
  have hkept : (List.range' 0 column).flatMap (substituteAt edits text) = text.take column := by
    rw [← List.drop_zero (l := text), ← flatMap_column]
    refine List.flatMap_congr fun other hother => ?_
    rw [List.mem_range'_1] at hother
    exact substituteAt_of_lt fun edit hedit => by have := h edit hedit; omega
  rw [substitute, hrange, List.flatMap_append, hkept]
  rfl

theorem substitute_nil (text : List Char) : substitute [] text = text := by
  have hnone : ∀ edit ∈ ([] : List Edit), text.length ≤ edit.column := by simp
  rw [substitute_eq_append hnone (Nat.le_refl _), List.take_length, substituteFrom,
    Nat.add_sub_cancel_left]
  simp [substituteAt]

/-- An edit that starts before all others alone decides what stands in its columns. -/
theorem substituteAt_cons {edit : Edit} (h : ∀ other ∈ edits, edit.Precedes other) {column : Nat}
    (hcolumn : column = edit.column ∨ edit.column < column ∧ column < edit.stop) :
    substituteAt (edit :: edits) text column =
      (if column = edit.column then edit.inserted else []) ++
        if column < edit.stop then [] else text[column]?.toList := by
  have hbefore : ∀ other ∈ edits, column < other.column := by
    intro other hother
    obtain ⟨hlt, hle⟩ := h other hother
    omega
  have hle : edit.column ≤ column := by omega
  rw [substituteAt, List.filter_cons, filter_column_eq_nil hbefore, List.any_cons,
    any_removes_eq_false hbefore]
  simp only [hle, decide_true, Bool.true_and, Bool.or_false, decide_eq_true_eq, beq_iff_eq,
    @eq_comm _ edit.column]
  split <;> simp

/-- Columns after an edit are not its concern. -/
theorem substituteAt_of_stop_le {edit : Edit} {column : Nat} (hlt : edit.column < column)
    (hstop : edit.stop ≤ column) :
    substituteAt (edit :: edits) text column = substituteAt edits text column := by
  simp [substituteAt, Nat.ne_of_lt hlt, Nat.not_lt.mpr hstop]

/-- An edit before all others puts its text where it starts and leaves what comes after it. -/
theorem substituteFrom_cons {edit : Edit} (h : ∀ other ∈ edits, edit.Precedes other)
    (hstop : edit.stop ≤ text.length) :
    substituteFrom (edit :: edits) text edit.column =
      edit.inserted ++ substituteFrom edits text edit.stop := by
  have hcolumn : edit.column ≤ edit.stop := Nat.le_add_right _ _
  have hafter : ∀ start count, edit.column < start → edit.stop ≤ start →
      (List.range' start count).flatMap (substituteAt (edit :: edits) text) =
        (List.range' start count).flatMap (substituteAt edits text) := by
    intro start count hstart hstop
    refine List.flatMap_congr fun column hmem => ?_
    rw [List.mem_range'_1] at hmem
    exact substituteAt_of_stop_le (by omega) (by omega)
  rcases Nat.lt_or_eq_of_le hcolumn with hlt | heq
  · -- The first column gets the text, the others up to the end of the edit are removed.
    have hcount : text.length + 1 - edit.column =
        1 + (edit.stop - (edit.column + 1) + (text.length + 1 - edit.stop)) := by omega
    have hremoved : (List.range' (edit.column + 1) (edit.stop - (edit.column + 1))).flatMap
        (substituteAt (edit :: edits) text) = [] := by
      rw [List.flatMap_eq_nil_iff]
      intro column hmem
      rw [List.mem_range'_1] at hmem
      rw [substituteAt_cons h (.inr ⟨by omega, by omega⟩), if_neg (by omega), if_pos (by omega)]
      rfl
    rw [substituteFrom, hcount, ← List.range'_append_1, ← List.range'_append_1, List.flatMap_append,
      List.flatMap_append, hremoved, Nat.add_sub_cancel' hlt, hafter _ _ hlt (Nat.le_refl _),
      List.range'_one, List.flatMap_singleton, substituteAt_cons h (.inl rfl), if_pos rfl,
      if_pos hlt]
    simp [substituteFrom]
  · -- Nothing is removed, and the text comes before the character of its column.
    have hcount : text.length + 1 - edit.column = text.length - edit.column + 1 := by omega
    have hfirst : substituteAt edits text edit.column = text[edit.column]?.toList :=
      substituteAt_of_lt fun other hother => (h other hother).column_lt
    rw [substituteFrom, substituteFrom, ← heq, hcount, List.range'_succ, List.flatMap_cons,
      List.flatMap_cons, hafter _ _ (Nat.lt_succ_self _) (by omega), hfirst,
      substituteAt_cons h (.inl rfl), if_pos rfl, if_neg (by omega), List.append_assoc]

/-- An edit before all others of a line, done on the line with the others done at once. -/
theorem spliceLine_substitute {edit : Edit} (h : ∀ other ∈ edits, edit.Precedes other)
    (hstop : edit.stop ≤ text.length) :
    LineList.spliceLine (substitute edits text) edit = substitute (edit :: edits) text := by
  have hcolumn : edit.column ≤ edit.stop := Nat.le_add_right _ _
  have hkept : substitute edits text = text.take edit.stop ++ substituteFrom edits text edit.stop :=
    substitute_eq_append (fun other hother => (h other hother).stop_le) hstop
  have hlength : (text.take edit.stop).length = edit.stop := List.length_take_of_le hstop
  have hall : ∀ other ∈ edit :: edits, edit.column ≤ other.column := by
    intro other hother
    rcases List.mem_cons.mp hother with rfl | hother
    · exact Nat.le_refl _
    · exact Nat.le_of_lt (h other hother).column_lt
  have htake : (text.take edit.stop ++ substituteFrom edits text edit.stop).take edit.column =
      text.take edit.column := by
    rw [List.take_append_of_le_length (by omega), List.take_take, Nat.min_eq_left hcolumn]
  have hdrop : (text.take edit.stop ++ substituteFrom edits text edit.stop).drop edit.stop =
      substituteFrom edits text edit.stop := List.drop_left' hlength
  rw [LineList.spliceLine, hkept, htake, hdrop, substitute_eq_append hall (by omega),
    substituteFrom_cons h hstop, List.append_assoc]

/-- An edit before all others fits the line with these done if, and only if, it fits the line. -/
theorem stop_le_length_substitute_iff {edit : Edit} (h : ∀ other ∈ edits, edit.Precedes other)
    (hfits : ∀ other ∈ edits, other.stop ≤ text.length) :
    edit.stop ≤ (substitute edits text).length ↔ edit.stop ≤ text.length := by
  cases edits with
  | nil => rw [substitute_nil]
  | cons other rest =>
    have hstop : edit.stop ≤ text.length :=
      calc edit.stop ≤ other.column := (h other List.mem_cons_self).stop_le
        _ ≤ other.stop := Nat.le_add_right _ _
        _ ≤ text.length := hfits other List.mem_cons_self
    rw [substitute_eq_append (fun other hother => (h other hother).stop_le) hstop,
      List.length_append, List.length_take_of_le hstop]
    exact ⟨fun _ => hstop, fun _ => Nat.le_add_right _ _⟩

/-- With at most one edit in each column, the order in which the edits are given does not matter. -/
theorem substitute_perm {permuted : List Edit} (hperm : permuted.Perm edits)
    (h : edits.Pairwise fun edit other => edit.column ≠ other.column) :
    substitute permuted text = substitute edits text := by
  refine List.flatMap_congr fun column _ => ?_
  have hfilter : permuted.filter (·.column == column) = edits.filter (·.column == column) := by
    have hperm' := hperm.filter (·.column == column)
    have hapart := h.filter (·.column == column)
    have hcolumn : ∀ edit ∈ edits.filter (·.column == column), edit.column = column :=
      fun edit hedit => by simpa using (List.mem_filter.mp hedit).2
    generalize edits.filter (·.column == column) = filtered at *
    match filtered with
    | [] => exact hperm'.eq_nil
    | [edit] => exact hperm'.eq_singleton
    | edit :: other :: rest =>
      refine absurd ?_ (List.rel_of_pairwise_cons hapart List.mem_cons_self)
      rw [hcolumn edit (by simp), hcolumn other (by simp)]
  rw [substituteAt, substituteAt, hfilter, hperm.any_eq]

end Line

end Edit

/-! ### The edits one after another -/

namespace LineList

open Edit (substitute substituteLines)

theorem spliceLine_of_isNoop {edit : Edit} (h : edit.isNoop = true) (line : List Char) :
    spliceLine line edit = line := by
  obtain ⟨hdelete, hinserted⟩ : edit.deleteLength = 0 ∧ edit.inserted = [] := by
    simpa [Edit.isNoop] using h
  rw [spliceLine, Edit.stop, hdelete, hinserted, Nat.add_zero, List.append_nil,
    List.take_append_drop]

variable {list : LineList} {line : List Char} {edit : Edit}

theorem step_of_le (hunbroken : Text.hasBreak edit.inserted = false)
    (hline : list.lines[edit.line]? = some line) (hstop : edit.stop ≤ line.length) :
    ∃ next, list.step edit = .ok next ∧
      next.lines = list.lines.set edit.line (spliceLine line edit) := by
  simp only [step, hunbroken, hline, Bool.false_eq_true, if_false, if_pos hstop]
  split
  · rename_i hnoop
    refine ⟨list, rfl, ?_⟩
    obtain ⟨hlt, rfl⟩ := List.getElem?_eq_some_iff.mp hline
    rw [spliceLine_of_isNoop hnoop, List.set_getElem_self]
  · exact ⟨_, rfl, rfl⟩

theorem step_of_lt (hunbroken : Text.hasBreak edit.inserted = false)
    (hline : list.lines[edit.line]? = some line) (hstop : ¬edit.stop ≤ line.length) :
    list.step edit = .error (.ofEdit edit) := by
  simp only [step, hunbroken, hline, Bool.false_eq_true, if_false, if_neg hstop]

variable {lines : List (List Char)} {done : List Edit}

theorem getElem?_substituteLines (edits : List Edit) (lines : List (List Char)) (number : Nat) :
    (substituteLines edits lines)[number]? =
      lines[number]?.map (substitute (edits.filter (·.line == number))) :=
  List.getElem?_mapIdx

theorem set_substituteLines (hline : lines[edit.line]? = some line) :
    (substituteLines done lines).set edit.line
        (substitute (edit :: done.filter (·.line == edit.line)) line) =
      substituteLines (edit :: done) lines := by
  refine List.ext_getElem? fun number => ?_
  rw [List.getElem?_set, getElem?_substituteLines, getElem?_substituteLines, List.filter_cons]
  by_cases hnumber : edit.line = number
  · subst hnumber
    have hlt : edit.line < (substituteLines done lines).length := by
      rw [substituteLines, List.length_mapIdx]
      exact (List.getElem?_eq_some_iff.mp hline).1
    rw [if_pos rfl, if_pos hlt, hline, if_pos (beq_self_eq_true _)]
    rfl
  · rw [if_neg hnumber, if_neg (by simpa using hnumber)]

/-- An edit that precedes those done on its line so far is refused if it does not fit the line as it
was before them, and else comes to be done with them at once. -/
theorem step_substituteLines (hlines : list.lines = substituteLines done lines)
    (hdone : ∀ other ∈ done, other.Fits lines)
    (hunbroken : Text.hasBreak edit.inserted = false) (hexists : edit.line < lines.length)
    (hfirst : ∀ other ∈ done, edit.line = other.line → edit.Precedes other) :
    (¬edit.Fits lines ∧ ∃ error, list.step edit = .error error) ∨
      edit.Fits lines ∧
        ∃ next, list.step edit = .ok next ∧ next.lines = substituteLines (edit :: done) lines := by
  obtain ⟨line, hline⟩ : ∃ line, lines[edit.line]? = some line :=
    ⟨_, List.getElem?_eq_getElem hexists⟩
  have hsame : ∀ other ∈ done.filter (·.line == edit.line),
      edit.Precedes other ∧ other.stop ≤ line.length := by
    intro other hother
    obtain ⟨hmem, heq⟩ := List.mem_filter.mp hother
    have heq : other.line = edit.line := by simpa using heq
    obtain ⟨own, hown, hstop⟩ := hdone other hmem
    rw [heq, hline] at hown
    cases hown
    exact ⟨hfirst other hmem heq.symm, hstop⟩
  have hprecedes := fun other hother => (hsame other hother).1
  have hcurrent : list.lines[edit.line]? =
      some (substitute (done.filter (·.line == edit.line)) line) := by
    rw [hlines, getElem?_substituteLines, hline]
    rfl
  have hlength := Edit.stop_le_length_substitute_iff hprecedes fun other hother =>
    (hsame other hother).2
  by_cases hstop : edit.stop ≤ line.length
  · obtain ⟨next, hstep, hnext⟩ := step_of_le hunbroken hcurrent (hlength.mpr hstop)
    refine .inr ⟨⟨line, hline, hstop⟩, next, hstep, ?_⟩
    rw [hnext, Edit.spliceLine_substitute hprecedes hstop, hlines, set_substituteLines hline]
  · refine .inl ⟨?_, _, step_of_lt hunbroken hcurrent (mt hlength.mp hstop)⟩
    rintro ⟨own, hown, hle⟩
    rw [hline] at hown
    cases hown
    exact hstop hle

/-- Edits that precede those done before on their line are all done if, and only if, they all fit
the lines as they were. -/
theorem run_substituteLines {todo : List Edit} (hlines : list.lines = substituteLines done lines)
    (hdone : ∀ other ∈ done, other.Fits lines)
    (hunbroken : ∀ edit ∈ todo, Text.hasBreak edit.inserted = false)
    (hexists : ∀ edit ∈ todo, edit.line < lines.length)
    (hfirst : ∀ edit ∈ todo, ∀ other ∈ done, edit.line = other.line → edit.Precedes other)
    (htodo : todo.Pairwise fun edit later => edit.line = later.line → later.Precedes edit) :
    (¬(∀ edit ∈ todo, edit.Fits lines) ∧ ∃ error, list.run todo = .error error) ∨
      (∀ edit ∈ todo, edit.Fits lines) ∧
        ∃ last, list.run todo = .ok last ∧
          last.lines = substituteLines (todo.reverse ++ done) lines := by
  induction todo generalizing list done with
  | nil => exact .inr ⟨by simp, list, rfl, hlines⟩
  | cons edit rest ih =>
    obtain ⟨hlater, hrest⟩ := List.pairwise_cons.mp htodo
    rw [List.forall_mem_cons] at hunbroken hexists hfirst
    rw [List.forall_mem_cons, run]
    rcases step_substituteLines hlines hdone hunbroken.1 hexists.1 hfirst.1 with
      ⟨hfits, error, hstep⟩ | ⟨hfits, next, hstep, hnext⟩
    · rw [hstep]
      exact .inl ⟨fun hall => hfits hall.1, error, rfl⟩
    · rw [hstep, List.reverse_cons, List.append_assoc, List.singleton_append]
      have hdone' := List.forall_mem_cons.mpr ⟨hfits, hdone⟩
      rcases ih hnext hdone' hunbroken.2 hexists.2 (fun other hother => List.forall_mem_cons.mpr
        ⟨fun hline => hlater other hother hline.symm, hfirst.2 other hother⟩) hrest with
        ⟨hnot, herror⟩ | ⟨hall, hlast⟩
      · exact .inl ⟨fun hall => hnot hall.2, herror⟩
      · exact .inr ⟨⟨hfits, hall⟩, hlast⟩

end LineList

/-! ### Batches whose edits keep apart -/

namespace Edit

/-- A batch of edits of existing lines, without line breaks, that keep apart on each line. -/
structure Separate (lines : List (List Char)) (edits : List Edit) : Prop where
  unbroken : ∀ edit ∈ edits, Text.hasBreak edit.inserted = false
  line_lt : ∀ edit ∈ edits, edit.line < lines.length
  apart : edits.Pairwise Apart

variable {lines : List (List Char)} {edits permuted : List Edit}

theorem Separate.perm (h : Separate lines edits) (hperm : permuted.Perm edits) :
    Separate lines permuted where
  unbroken edit hedit := h.unbroken edit (hperm.mem_iff.mp hedit)
  line_lt edit hedit := h.line_lt edit (hperm.mem_iff.mp hedit)
  apart := (hperm.pairwise_iff Apart.symm).mpr h.apart

theorem substituteLines_nil (lines : List (List Char)) : substituteLines [] lines = lines := by
  refine List.ext_getElem? fun number => ?_
  rw [LineList.getElem?_substituteLines, List.filter_nil, funext substitute_nil, Option.map_id']

theorem substituteLines_perm (hperm : permuted.Perm edits) (hapart : edits.Pairwise Apart) :
    substituteLines permuted lines = substituteLines edits lines := by
  refine List.ext_getElem? fun number => ?_
  rw [LineList.getElem?_substituteLines, LineList.getElem?_substituteLines]
  congr 1
  funext line
  refine substitute_perm (hperm.filter _) ?_
  refine (hapart.filter (·.line == number)).imp_of_mem fun {edit other} hedit hother h => ?_
  have hedit : edit.line = number := by simpa using (List.mem_filter.mp hedit).2
  have hother : other.line = number := by simpa using (List.mem_filter.mp hother).2
  rcases h (hedit.trans hother.symm) with hbefore | hafter
  · exact Nat.ne_of_lt hbefore.column_lt
  · exact Nat.ne_of_gt hafter.column_lt

/-- Of two edits of a line, the one that is worked off first comes after the other. -/
theorem Separate.precedes_byColumn (h : Separate lines edits) :
    (byColumn edits).Pairwise fun edit later => edit.line = later.line → later.Precedes edit := by
  have hsorted := sortedByColumn_byColumn edits
  refine (hsorted.descending.and (h.perm hsorted.perm).apart).imp fun ⟨hle, hapart⟩ hline => ?_
  rcases hapart hline with hbefore | hafter
  · have := hbefore.column_lt
    omega
  · exact hafter

/-- On the list of lines, such a batch is refused unless every edit fits the lines before it, and
else does all edits at once. -/
theorem Separate.edit_cases (h : Separate lines edits) :
    (¬(∀ edit ∈ edits, edit.Fits lines) ∧ ∃ error, LineList.edit lines edits = .error error) ∨
      (∀ edit ∈ edits, edit.Fits lines) ∧
        ∃ list, LineList.edit lines edits = .ok list ∧
          list.lines = substituteLines edits lines := by
  have hperm := (sortedByColumn_byColumn edits).perm
  have hsorted := h.perm hperm
  have hfits : (∀ edit ∈ byColumn edits, edit.Fits lines) ↔ ∀ edit ∈ edits, edit.Fits lines := by
    simp only [mem_byColumn]
  have hresult : substituteLines ((byColumn edits).reverse ++ []) lines =
      substituteLines edits lines := by
    rw [List.append_nil]
    exact substituteLines_perm ((List.reverse_perm _).trans hperm) h.apart
  rw [LineList.edit, ← hfits, ← hresult]
  exact LineList.run_substituteLines (substituteLines_nil lines).symm (by simp) hsorted.unbroken
    hsorted.line_lt (by simp) h.precedes_byColumn

theorem Separate.exists_edit (h : Separate lines edits) (hfits : ∀ edit ∈ edits, edit.Fits lines) :
    ∃ list, LineList.edit lines edits = .ok list := by
  rcases h.edit_cases with ⟨hnot, -⟩ | ⟨-, list, hedit, -⟩
  · exact absurd hfits hnot
  · exact ⟨list, hedit⟩

theorem Separate.of_edit (h : Separate lines edits) {list : LineList}
    (hedit : LineList.edit lines edits = .ok list) :
    (∀ edit ∈ edits, edit.Fits lines) ∧ list.lines = substituteLines edits lines := by
  rcases h.edit_cases with ⟨-, error, herror⟩ | ⟨hfits, first, hfirst, hlines⟩
  · rw [hedit] at herror
    cases herror
  · obtain rfl : first = list := Except.ok.inj (hfirst.symm.trans hedit)
    exact ⟨hfits, hlines⟩

/-- In whatever order such a batch is given, it leads to the same lines and changes the same. -/
theorem Separate.edit_perm (h : Separate lines edits) (hperm : permuted.Perm edits)
    {list : LineList} (hedit : LineList.edit lines edits = .ok list) :
    LineList.edit lines permuted = .ok list := by
  obtain ⟨hfits, hlines⟩ := h.of_edit hedit
  have h' := h.perm hperm
  obtain ⟨other, hother⟩ := h'.exists_edit fun edit hmem => hfits edit (hperm.mem_iff.mp hmem)
  have hsame : other.lines = list.lines := by
    rw [(h'.of_edit hother).2, hlines, substituteLines_perm hperm h.apart]
  have hchanged : other.changed = list.changed := by
    refine LineSet.eq_of_mem_iff fun line => ?_
    rw [LineList.mem_changed_edit hother, LineList.mem_changed_edit hedit, hsame]
    simp only [hperm.mem_iff]
  rw [hother, Except.ok.injEq]
  cases list
  cases other
  cases hsame
  cases hchanged
  rfl

end Edit

/-- A batch whose edits keep apart on each line is accepted if, and only if, every edit fits its
line as it was before the batch. Then each line becomes what all its edits done at once make of it,
and every order of the batch has the same outcome, the changed lines included. -/
theorem Snapshot.apply_separate {s : Snapshot} {lines : List (List Char)} (h : s.Represents lines)
    {edits : List Edit} (hseparate : Edit.Separate lines edits) :
    ((∃ outcome, s.apply edits = .ok outcome) ↔ ∀ edit ∈ edits, edit.Fits lines) ∧
      ∀ outcome, s.apply edits = .ok outcome →
        ((outcome.map Change.snapshot).getD s).Represents (Edit.substituteLines edits lines) ∧
          ∀ permuted, permuted.Perm edits → s.apply permuted = .ok outcome := by
  constructor
  · constructor
    · rintro ⟨outcome, happly⟩
      obtain ⟨list, hedit, -⟩ := h.apply_eq_ok_iff.mp happly
      exact (hseparate.of_edit hedit).1
    · intro hfits
      obtain ⟨list, hedit⟩ := hseparate.exists_edit hfits
      exact ⟨_, h.apply_eq_ok_iff.mpr ⟨list, hedit, rfl⟩⟩
  · intro outcome happly
    obtain ⟨list, hedit, rfl⟩ := h.apply_eq_ok_iff.mp happly
    refine ⟨?_, fun permuted hperm =>
      h.apply_eq_ok_iff.mpr ⟨list, hseparate.edit_perm hperm hedit, rfl⟩⟩
    rw [← (hseparate.of_edit hedit).2]
    exact h.after hedit

/-- An insertion, two replacements and a removal on one line, two of which meet in one column, and
an edit of another line. -/
theorem Snapshot.apply_separate_meeting :
    let s : Snapshot := ⟨['a', 'b', 'c', 'd', 'e', 'f', '\n', 'x'], 2, 7, 1⟩
    let lines : List (List Char) := [['a', 'b', 'c', 'd', 'e', 'f'], ['x']]
    let edits : List Edit :=
      [⟨0, 1, 1, ['X', 'X']⟩, ⟨1, 1, 0, ['!']⟩, ⟨0, 4, 1, ['Y']⟩, ⟨0, 0, 0, ['_']⟩, ⟨0, 2, 1, []⟩]
    let change : Change :=
      ⟨.ofLines [['_', 'a', 'X', 'X', 'd', 'Y', 'f'], ['x', '!']] 2, .ofList [0, 1]⟩
    s.Represents lines ∧ Edit.Separate lines edits ∧ (∀ edit ∈ edits, edit.Fits lines) ∧
      s.apply edits = .ok (some change) ∧
      change.snapshot.Represents [['_', 'a', 'X', 'X', 'd', 'Y', 'f'], ['x', '!']] ∧
      s.apply edits.reverse = .ok (some change) := by
  intro s lines edits change
  have h : s.Represents lines := ⟨rfl, rfl, rfl, by decide⟩
  have hseparate : Edit.Separate lines edits := ⟨by decide, by decide, by decide⟩
  have happly : s.apply edits = .ok (some change) := by decide +kernel
  obtain ⟨hrepresents, hperm⟩ := (apply_separate h hseparate).2 _ happly
  exact ⟨h, hseparate, (apply_separate h hseparate).1.mp ⟨_, happly⟩, happly, hrepresents,
    hperm _ (List.reverse_perm edits)⟩

end LineTokens
