import LineTokens.Proofs.Buffer.Refinement

/-! Loading a text into an empty document. The edits that append the text's lines are all done, in
order, and leave those lines. -/

namespace LineTokens

/-- Edits at column 0 are worked off in their order. -/
theorem Edit.byColumn_of_column_zero {edits : List Edit} (h : ∀ edit ∈ edits, edit.column = 0) :
    byColumn edits = edits := by
  induction edits with
  | nil => rfl
  | cons edit rest ih =>
    have hrest : byColumn rest = rest := ih fun e he => h e (List.mem_cons_of_mem _ he)
    rw [byColumn] at hrest ⊢
    rw [List.foldr_cons, hrest]
    cases rest with
    | nil => rfl
    | cons next rest =>
      rw [insertByColumn, if_pos]
      rw [h next (by simp)]
      exact Nat.zero_le _

theorem Edit.column_of_mem_insertLines {lines : List (List Char)} {line : Nat} {edit : Edit}
    (h : edit ∈ insertLines line lines) : edit.column = 0 := by
  induction lines generalizing line with
  | nil => cases h
  | cons text rest ih =>
    rcases List.mem_cons.mp h with rfl | h
    · rfl
    · exact ih h

theorem LineList.step_insertLine (list : LineList) {text : List Char}
    (h : Text.hasBreak text = false) :
    list.step (.insertLine list.lines.length text) =
      .ok ⟨list.lines ++ [text], list.changed.insert list.lines.length⟩ := by
  simp [step, Edit.insertLine, h]

theorem LineList.run_insertLines {lines : List (List Char)}
    (h : ∀ line ∈ lines, Text.hasBreak line = false) (list : LineList) :
    ∃ changed, list.run (Edit.insertLines list.lines.length lines) =
      .ok ⟨list.lines ++ lines, changed⟩ := by
  induction lines generalizing list with
  | nil => exact ⟨list.changed, by simp [Edit.insertLines, run]⟩
  | cons text rest ih =>
    obtain ⟨changed, hrun⟩ := ih (fun line hl => h line (List.mem_cons_of_mem _ hl))
      ⟨list.lines ++ [text], list.changed.insert list.lines.length⟩
    refine ⟨changed, ?_⟩
    rw [Edit.insertLines, run, step_insertLine list (h text (by simp))]
    simpa using hrun

/-- Into an empty document just the lines are loaded. -/
theorem LineList.edit_insertLines {lines : List (List Char)}
    (h : ∀ line ∈ lines, Text.hasBreak line = false) :
    ∃ list, edit [] (Edit.insertLines 0 lines) = .ok list ∧ list.lines = lines ∧
      ∀ line, line ∈ list.changed ↔ line < lines.length := by
  obtain ⟨changed, hrun⟩ := run_insertLines h ⟨[], .empty⟩
  have hedit : edit [] (Edit.insertLines 0 lines) = .ok ⟨lines, changed⟩ := by
    rw [edit, Edit.byColumn_of_column_zero fun _ => Edit.column_of_mem_insertLines]
    exact hrun
  refine ⟨_, hedit, rfl, fun line => ?_⟩
  rw [mem_changed_edit hedit]
  constructor
  · rintro (⟨edit, hmem, rfl, -⟩ | ⟨-, hlt⟩)
    · exact line_lt_of_run hedit (Edit.mem_byColumn.mpr hmem)
    · exact hlt
  · exact fun hlt => .inr ⟨Nat.zero_le _, hlt⟩

/-- Loading lines into an empty document succeeds. It leaves just these lines, as the first version,
and names all of them. -/
theorem Snapshot.apply_insertLines {lines : List (List Char)} (hne : lines ≠ [])
    (h : ∀ line ∈ lines, Text.hasBreak line = false) :
    ∃ change, empty.apply (Edit.insertLines 0 lines) = .ok (some change) ∧
      change.snapshot.Represents lines ∧ change.snapshot.version = 1 ∧
      ∀ line, line ∈ change.changedLines ↔ line < lines.length := by
  obtain ⟨list, hedit, rfl, hchanged⟩ := LineList.edit_insertLines h
  have hnonempty : list.changed.isEmpty = false := by
    refine Bool.eq_false_iff.mpr fun hempty => ?_
    have hfirst := (hchanged 0).mpr (List.length_pos_iff.mpr hne)
    exact LineSet.isEmpty_iff.mp hempty 0 hfirst
  refine ⟨⟨.ofLines list.lines 1, list.changed⟩, ?_, ?_, rfl, hchanged⟩
  · exact represents_empty.apply_eq_ok_iff.mpr
      ⟨list, hedit, LineList.change?_eq_some_iff.mpr ⟨hnonempty, rfl, rfl⟩⟩
  · exact represents_empty.ofLines_of_edit hedit 1

end LineTokens
