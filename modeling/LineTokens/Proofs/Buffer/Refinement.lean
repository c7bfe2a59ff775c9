import LineTokens.Proofs.Buffer.Apply
import Mathlib.Data.List.Perm.Basic

/-! A batch on a snapshot as a machine on the plain list of its lines. The machine works the edits
off by descending column, those of one column in their order, and stops at the first that it
refuses. The snapshot refuses the batch with the same error, and otherwise commits the snapshot of
the lines that the machine ends with, unless every edit is a no-op on a line that exists. -/

namespace LineTokens

/-! ### The order of a batch -/

namespace Edit

/-- `sorted` has the edits by descending column, those of one column in their order. -/
structure SortedByColumn (edits sorted : List Edit) : Prop where
  perm : sorted.Perm edits
  descending : sorted.Pairwise fun edit later => later.column ≤ edit.column
  stable : ∀ column, sorted.filter (·.column == column) = edits.filter (·.column == column)

theorem insertByColumn_perm (edit : Edit) (edits : List Edit) :
    (insertByColumn edit edits).Perm (edit :: edits) := by
  induction edits with
  | nil => exact .refl _
  | cons first rest ih =>
    rw [insertByColumn]
    split
    · exact .refl _
    · exact (ih.cons first).trans (.swap edit first rest)

theorem insertByColumn_descending {edit : Edit} {edits : List Edit}
    (h : edits.Pairwise fun edit later => later.column ≤ edit.column) :
    (insertByColumn edit edits).Pairwise fun edit later => later.column ≤ edit.column := by
  induction edits with
  | nil => exact List.pairwise_singleton _ _
  | cons first rest ih =>
    obtain ⟨hfirst, hrest⟩ := List.pairwise_cons.mp h
    rw [insertByColumn]
    split
    · rename_i hle
      refine List.pairwise_cons.mpr ⟨fun later hlater => ?_, h⟩
      rcases List.mem_cons.mp hlater with rfl | hlater
      · exact hle
      · exact Nat.le_trans (hfirst later hlater) hle
    · refine List.pairwise_cons.mpr ⟨fun later hlater => ?_, ih hrest⟩
      rcases List.mem_cons.mp ((insertByColumn_perm edit rest).mem_iff.mp hlater) with rfl | hlater
      · omega
      · exact hfirst later hlater

/-- An edit comes before those of its column that it is put among. -/
theorem filter_insertByColumn (edit : Edit) (edits : List Edit) (column : Nat) :
    (insertByColumn edit edits).filter (·.column == column) =
      (edit :: edits).filter (·.column == column) := by
  induction edits with
  | nil => rfl
  | cons first rest ih =>
    rw [insertByColumn]
    split
    · rfl
    · rename_i hlt
      rw [List.filter_cons, ih]
      by_cases hfirst : first.column = column
      · have hedit : ¬edit.column = column := by omega
        simp [hfirst, hedit]
      · simp [List.filter_cons, hfirst]

theorem sortedByColumn_byColumn (edits : List Edit) : SortedByColumn edits (byColumn edits) := by
  induction edits with
  | nil => exact ⟨.refl _, .nil, fun _ => rfl⟩
  | cons edit rest ih =>
    rw [byColumn] at ih ⊢
    rw [List.foldr_cons]
    refine ⟨?_, insertByColumn_descending ih.descending, fun column => ?_⟩
    · exact (insertByColumn_perm _ _).trans (ih.perm.cons edit)
    · rw [filter_insertByColumn, List.filter_cons, List.filter_cons, ih.stable]

theorem mem_byColumn {edit : Edit} {edits : List Edit} : edit ∈ byColumn edits ↔ edit ∈ edits :=
  (sortedByColumn_byColumn edits).perm.mem_iff

end Edit

/-! ### Runs of the machine -/

namespace LineList

theorem run_append (list : LineList) (edits more : List Edit) :
    list.run (edits ++ more) =
      match list.run edits with
      | .error error => .error error
      | .ok next => next.run more := by
  induction edits generalizing list with
  | nil => rfl
  | cons edit rest ih =>
    rw [List.cons_append, run, run]
    cases list.step edit with
    | error error => rfl
    | ok next => exact ih next

theorem run_cons_eq_ok_iff {list last : LineList} {edit : Edit} {rest : List Edit} :
    list.run (edit :: rest) = .ok last ↔
      ∃ next, list.step edit = .ok next ∧ next.run rest = .ok last := by
  rw [run]
  cases list.step edit with
  | error error => simp
  | ok next => simp

/-- A run fails where its first edit that is refused stands, with the error of this edit. -/
theorem run_eq_error_iff {list : LineList} {edits : List Edit} {error : EditError} :
    list.run edits = .error error ↔
      ∃ before edit after next, edits = before ++ edit :: after ∧ list.run before = .ok next ∧
        next.step edit = .error error := by
  constructor
  · intro h
    induction edits generalizing list with
    | nil => cases h
    | cons edit rest ih =>
      rw [run] at h
      cases hstep : list.step edit with
      | error first =>
        rw [hstep] at h
        exact ⟨[], edit, rest, list, rfl, rfl, hstep.trans h⟩
      | ok next =>
        rw [hstep] at h
        obtain ⟨before, refused, after, last, rfl, hrun, hrefused⟩ := ih h
        refine ⟨edit :: before, refused, after, last, rfl, ?_, hrefused⟩
        rw [run, hstep]
        exact hrun
  · rintro ⟨before, edit, after, next, rfl, hrun, hstep⟩
    simp only [run_append, hrun, run, hstep]

/-- What an edit that is not refused does: nothing, if it is a no-op on an existing line; else its
line is changed, which exists or is appended. -/
theorem step_cases {list next : LineList} {edit : Edit} (h : list.step edit = .ok next) :
    (edit.isNoop = true ∧ edit.line < list.lines.length ∧ next = list) ∨
      (edit.isNoop = false ∧ edit.line < list.lines.length ∧
        next.lines.length = list.lines.length ∧ next.changed = list.changed.insert edit.line) ∨
      (edit.line = list.lines.length ∧ next.lines = list.lines ++ [edit.inserted] ∧
        next.changed = list.changed.insert edit.line) := by
  unfold step at h
  split at h
  · cases h
  split at h
  · rename_i line hline
    have hlt : edit.line < list.lines.length := (List.getElem?_eq_some_iff.mp hline).1
    split at h
    · split at h
      · rename_i hnoop
        cases h
        exact .inl ⟨hnoop, hlt, rfl⟩
      · rename_i hnoop
        cases h
        exact .inr (.inl ⟨Bool.eq_false_iff.mpr hnoop, hlt, List.length_set, rfl⟩)
    · cases h
  · split at h
    · rename_i happends
      cases h
      exact .inr (.inr ⟨happends.1, rfl, rfl⟩)
    · cases h

/-- The lines that a run changes: those of edits that are not no-ops, and those appended. -/
theorem mem_changed_run {list last : LineList} {edits : List Edit} (h : list.run edits = .ok last)
    (line : Nat) :
    line ∈ last.changed ↔
      line ∈ list.changed ∨ (∃ edit ∈ edits, edit.line = line ∧ edit.isNoop = false) ∨
        list.lines.length ≤ line ∧ line < last.lines.length := by
  induction edits generalizing list with
  | nil =>
    cases h
    constructor
    · exact .inl
    · rintro (hmem | ⟨_, hnil, -⟩ | ⟨hle, hlt⟩)
      · exact hmem
      · cases hnil
      · omega
  | cons edit rest ih =>
    obtain ⟨next, hstep, hrun⟩ := run_cons_eq_ok_iff.mp h
    rw [ih hrun, List.exists_mem_cons_iff]
    have hgrows := (run_frame hrun).2.length_le
    rcases step_cases hstep with ⟨hnoop, hlt, rfl⟩ | ⟨hnoop, hlt, hlength, hchanged⟩ |
      ⟨hline, hlines, hchanged⟩
    · simp [hnoop]
    · rw [hlength, hchanged, LineSet.mem_insert, @eq_comm _ line]
      simp only [hnoop, and_true]
      rw [or_assoc, or_assoc, or_left_comm]
    · rw [hlines, List.length_append, List.length_singleton] at hgrows
      rw [hlines, hchanged, LineSet.mem_insert, List.length_append, List.length_singleton]
      constructor
      · rintro ((rfl | hmem) | hrest | ⟨hle, hlt⟩)
        · exact .inr (.inr ⟨by omega, by omega⟩)
        · exact .inl hmem
        · exact .inr (.inl (.inr hrest))
        · exact .inr (.inr ⟨by omega, hlt⟩)
      · rintro (hmem | (⟨rfl, -⟩ | hrest) | ⟨hle, hlt⟩)
        · exact .inl (.inr hmem)
        · exact .inl (.inl rfl)
        · exact .inr (.inl hrest)
        · by_cases heq : line = edit.line
          · exact .inl (.inl heq)
          · exact .inr (.inr ⟨by omega, hlt⟩)

/-- The line of an edit that is done is one of the lines afterwards. -/
theorem line_lt_of_run {list last : LineList} {edits : List Edit} (h : list.run edits = .ok last)
    {edit : Edit} (hedit : edit ∈ edits) : edit.line < last.lines.length := by
  induction edits generalizing list with
  | nil => cases hedit
  | cons first rest ih =>
    obtain ⟨next, hstep, hrun⟩ := run_cons_eq_ok_iff.mp h
    rcases List.mem_cons.mp hedit with rfl | hedit
    · have hgrows := (run_frame hrun).2.length_le
      rcases step_cases hstep with ⟨-, hlt, rfl⟩ | ⟨-, hlt, hlength, -⟩ | ⟨hline, hlines, -⟩
      · omega
      · omega
      · rw [hlines, List.length_append, List.length_singleton] at hgrows
        omega
    · exact ih hrun hedit

/-- No-ops on existing lines change nothing. -/
theorem eq_of_run_noops {list last : LineList} {edits : List Edit} (h : list.run edits = .ok last)
    (hnoops : ∀ edit ∈ edits, edit.isNoop = true ∧ edit.line < list.lines.length) :
    last = list := by
  induction edits with
  | nil =>
    cases h
    rfl
  | cons edit rest ih =>
    obtain ⟨hnoop, hlt⟩ := hnoops edit List.mem_cons_self
    obtain ⟨next, hstep, hrun⟩ := run_cons_eq_ok_iff.mp h
    rcases step_cases hstep with ⟨-, -, rfl⟩ | ⟨hchanges, -⟩ | ⟨hline, -⟩
    · exact ih hrun fun other hother => hnoops other (List.mem_cons_of_mem _ hother)
    · rw [hnoop] at hchanges
      cases hchanges
    · omega

end LineList

/-! ### Snapshots and lists of lines -/

/-- The snapshot of some lines. -/
def Snapshot.ofLines (lines : List (List Char)) (version : Nat) : Snapshot :=
  ⟨Text.joinLines lines, lines.length, lines.flatten.length, version⟩

/-- The change that the machine has made, if it has changed a line. -/
def LineList.change? (list : LineList) (version : Nat) : Option Change :=
  if list.changed.isEmpty then none else some ⟨.ofLines list.lines version, list.changed⟩

/-- A set is known from its members. -/
theorem LineSet.eq_of_mem_iff {set other : LineSet} (h : ∀ line, line ∈ set ↔ line ∈ other) :
    set = other := by
  have hperm : set.lines.Perm other.lines :=
    (List.perm_ext_iff_of_nodup (set.ascending.imp Nat.ne_of_lt)
      (other.ascending.imp Nat.ne_of_lt)).mpr h
  have hlines : set.lines = other.lines := hperm.eq_of_pairwise
    (fun _ _ _ _ hlt hgt => absurd hlt (Nat.lt_asymm hgt)) set.ascending other.ascending
  cases set
  cases other
  cases hlines
  rfl

theorem LineSet.isEmpty_iff {set : LineSet} : set.isEmpty = true ↔ ∀ line, line ∉ set := by
  rw [isEmpty, List.isEmpty_iff, List.eq_nil_iff_forall_not_mem]
  rfl

theorem LineList.change?_eq_none_iff {list : LineList} {version : Nat} :
    list.change? version = none ↔ list.changed.isEmpty = true := by
  rw [change?]
  split <;> simp_all

theorem LineList.change?_eq_some_iff {list : LineList} {version : Nat} {change : Change} :
    list.change? version = some change ↔ list.changed.isEmpty = false ∧
      change.snapshot = .ofLines list.lines version ∧ change.changedLines = list.changed := by
  rw [change?]
  constructor
  · intro h
    split at h
    · cases h
    · rename_i hchanged
      cases h
      exact ⟨Bool.eq_false_iff.mpr hchanged, rfl, rfl⟩
  · rintro ⟨hchanged, hsnapshot, hlines⟩
    rw [hchanged, ← hsnapshot, ← hlines]
    rfl

theorem Draft.Shows.commit?_eq {draft : Draft} {list : LineList} (h : draft.Shows list)
    (s : Snapshot) : s.commit? draft = list.change? (s.version + 1) := by
  rw [Snapshot.commit?, LineList.change?, Snapshot.ofLines, h.text_eq, h.lineCount_eq, h.length_eq,
    h.changed_eq]

namespace Snapshot.Represents

variable {s : Snapshot} {lines : List (List Char)}

theorem apply_eq_error_iff (h : s.Represents lines) {edits : List Edit} {error : EditError} :
    s.apply edits = .error error ↔ LineList.edit lines edits = .error error := by
  rcases h.apply_eq edits with ⟨first, hedit, happly⟩ | ⟨draft, list, hedit, happly, -⟩
  · rw [happly, hedit, Except.error.injEq, Except.error.injEq]
  · rw [happly, hedit]
    exact ⟨nofun, nofun⟩

theorem apply_eq_ok_iff (h : s.Represents lines) {edits : List Edit} {outcome : Option Change} :
    s.apply edits = .ok outcome ↔
      ∃ list, LineList.edit lines edits = .ok list ∧ list.change? (s.version + 1) = outcome := by
  rcases h.apply_eq edits with ⟨first, hedit, happly⟩ | ⟨draft, list, hedit, happly, hshows⟩
  · rw [happly, hedit]
    exact ⟨nofun, nofun⟩
  · rw [happly, hedit, hshows.commit?_eq, Except.ok.injEq]
    constructor
    · exact fun houtcome => ⟨list, rfl, houtcome⟩
    · rintro ⟨other, hother, houtcome⟩
      cases hother
      exact houtcome

/-- The machine leaves lines that a snapshot can have. -/
theorem ofLines_of_edit (h : s.Represents lines) {edits : List Edit} {list : LineList}
    (hedit : LineList.edit lines edits = .ok list) (version : Nat) :
    (ofLines list.lines version).Represents list.lines := by
  rcases h.apply_eq edits with ⟨error, herror, -⟩ | ⟨draft, other, hother, -, hshows⟩
  · rw [hedit] at herror
    cases herror
  · obtain rfl : other = list := Except.ok.inj (hother.symm.trans hedit)
    exact ⟨rfl, rfl, rfl, hshows.unbroken⟩

theorem eq_ofLines (h : s.Represents lines) : s = .ofLines lines s.version := by
  obtain ⟨text, lineCount, length, version⟩ := s
  obtain ⟨rfl, rfl, rfl, -⟩ := h
  rfl

end Snapshot.Represents

/-- The lines that a batch changes. -/
theorem LineList.mem_changed_edit {lines : List (List Char)} {edits : List Edit} {list : LineList}
    (h : edit lines edits = .ok list) (line : Nat) :
    line ∈ list.changed ↔
      (∃ edit ∈ edits, edit.line = line ∧ edit.isNoop = false) ∨
        lines.length ≤ line ∧ line < list.lines.length := by
  rw [mem_changed_run h]
  simp only [Edit.mem_byColumn]
  exact ⟨fun hmem => hmem.resolve_left LineSet.mem_empty.mp, .inr⟩

/-- A batch that is done changes no line if, and only if, each of its edits is a no-op on a line
that was there before. -/
theorem LineList.isEmpty_changed_edit {lines : List (List Char)} {edits : List Edit}
    {list : LineList} (h : edit lines edits = .ok list) :
    list.changed.isEmpty = true ↔
      ∀ edit ∈ edits, edit.isNoop = true ∧ edit.line < lines.length := by
  constructor
  · intro hempty
    have hunchanged := LineSet.isEmpty_iff.mp hempty
    have hcount : list.lines.length ≤ lines.length := by
      by_contra hlt
      exact hunchanged lines.length
        ((mem_changed_edit h _).mpr (.inr ⟨Nat.le_refl _, Nat.lt_of_not_le hlt⟩))
    intro edit hedit
    have hline := line_lt_of_run h (Edit.mem_byColumn.mpr hedit)
    refine ⟨?_, by omega⟩
    by_contra hnoop
    exact hunchanged edit.line
      ((mem_changed_edit h _).mpr (.inl ⟨edit, hedit, rfl, Bool.eq_false_iff.mpr hnoop⟩))
  · intro hnoops
    rw [eq_of_run_noops h fun edit hedit => hnoops edit (Edit.mem_byColumn.mp hedit)]
    rfl

/-- The snapshot after a batch that is done, be it a new one or the same, has the lines that the
machine ends with. -/
theorem Snapshot.Represents.after {s : Snapshot} {lines : List (List Char)} (h : s.Represents lines)
    {edits : List Edit} {list : LineList} (hedit : LineList.edit lines edits = .ok list) :
    (((list.change? (s.version + 1)).map Change.snapshot).getD s).Represents list.lines := by
  rw [LineList.change?]
  split
  · rename_i hempty
    have hnoops := (LineList.isEmpty_changed_edit hedit).mp hempty
    have hsame := LineList.eq_of_run_noops hedit fun edit hmem =>
      hnoops edit (Edit.mem_byColumn.mp hmem)
    rw [hsame]
    exact h
  · exact h.ofLines_of_edit hedit _

/-- A batch on a snapshot does what the machine does that works it off by descending column on the
plain list of lines: the first edit that the machine refuses gives the error; no-ops on lines that
exist commit nothing; any other batch commits the lines that the machine ends with, as one more
version, and names the lines of its edits other than no-ops and the lines appended. -/
theorem Snapshot.apply_refines_lines {s : Snapshot} {lines : List (List Char)}
    (h : s.Represents lines) (edits : List Edit) :
    Edit.SortedByColumn edits (Edit.byColumn edits) ∧
    (∀ error, s.apply edits = .error error ↔
      ∃ before edit after list, Edit.byColumn edits = before ++ edit :: after ∧
        LineList.run ⟨lines, .empty⟩ before = .ok list ∧ list.step edit = .error error) ∧
    (s.apply edits = .ok none ↔
      (∃ list, LineList.edit lines edits = .ok list) ∧
        ∀ edit ∈ edits, edit.isNoop = true ∧ edit.line < lines.length) ∧
    ∀ change, s.apply edits = .ok (some change) ↔
      ∃ list, LineList.edit lines edits = .ok list ∧
        ¬(∀ edit ∈ edits, edit.isNoop = true ∧ edit.line < lines.length) ∧
        change.snapshot.Represents list.lines ∧ change.snapshot.version = s.version + 1 ∧
        ∀ line, line ∈ change.changedLines ↔
          (∃ edit ∈ edits, edit.line = line ∧ edit.isNoop = false) ∨
            lines.length ≤ line ∧ line < list.lines.length := by
  refine ⟨Edit.sortedByColumn_byColumn edits, fun error => ?_, ?_, fun change => ?_⟩
  · exact h.apply_eq_error_iff.trans LineList.run_eq_error_iff
  · rw [h.apply_eq_ok_iff]
    constructor
    · rintro ⟨list, hedit, hnone⟩
      have hempty := LineList.change?_eq_none_iff.mp hnone
      exact ⟨⟨list, hedit⟩, (LineList.isEmpty_changed_edit hedit).mp hempty⟩
    · rintro ⟨⟨list, hedit⟩, hnoops⟩
      have hempty := (LineList.isEmpty_changed_edit hedit).mpr hnoops
      exact ⟨list, hedit, LineList.change?_eq_none_iff.mpr hempty⟩
  · rw [h.apply_eq_ok_iff]
    refine exists_congr fun list => and_congr_right fun hedit => ?_
    rw [LineList.change?_eq_some_iff, ← LineList.isEmpty_changed_edit hedit, Bool.not_eq_true]
    refine and_congr_right fun _ => ?_
    constructor
    · rintro ⟨hsnapshot, hchanged⟩
      rw [hsnapshot, hchanged]
      exact ⟨h.ofLines_of_edit hedit _, rfl, LineList.mem_changed_edit hedit⟩
    · rintro ⟨hrepresents, hversion, hchanged⟩
      refine ⟨hversion ▸ hrepresents.eq_ofLines, LineSet.eq_of_mem_iff fun line => ?_⟩
      rw [hchanged, LineList.mem_changed_edit hedit]

/-- A line is appended and then edited, while no-ops and edits of other lines stand between the two;
an edit of the appended line in a higher column comes before it and fails. -/
theorem Snapshot.apply_refines_lines_appending :
    let s : Snapshot := ⟨['a', 'b', '\n', 'c'], 2, 3, 4⟩
    let lines : List (List Char) := [['a', 'b'], ['c']]
    let edits : List Edit :=
      [.insertLine 2 [], ⟨0, 1, 1, ['x', 'y']⟩, ⟨1, 1, 0, []⟩, ⟨2, 0, 0, ['d']⟩]
    let list : LineList := ⟨[['a', 'x', 'y'], ['c'], ['d']], .ofList [0, 2]⟩
    let change : Change := ⟨⟨['a', 'x', 'y', '\n', 'c', '\n', 'd'], 3, 5, 5⟩, .ofList [0, 2]⟩
    s.Represents lines ∧ LineList.edit lines edits = .ok list ∧
      s.apply edits = .ok (some change) ∧ change.snapshot.Represents list.lines ∧
      s.apply (⟨2, 1, 0, ['e']⟩ :: edits) = .error (.outOfRange 2 1 0) := by
  intro s lines edits list change
  have h : s.Represents lines := ⟨rfl, rfl, rfl, by decide⟩
  have hedit : LineList.edit lines edits = .ok list := by decide +kernel
  have happly : s.apply edits = .ok (some change) := by decide +kernel
  obtain ⟨ended, hended, -, hrepresents, -, -⟩ := ((apply_refines_lines h edits).2.2.2 _).mp happly
  obtain rfl : ended = list := Except.ok.inj (hended.symm.trans hedit)
  refine ⟨h, hedit, happly, hrepresents, ?_⟩
  exact ((apply_refines_lines h _).2.1 _).mpr
    ⟨[], ⟨2, 1, 0, ['e']⟩, Edit.byColumn edits, _, by decide, rfl, rfl⟩

end LineTokens
