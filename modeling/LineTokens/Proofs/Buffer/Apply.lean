import LineTokens.Buffer.LineList
import LineTokens.Proofs.Text.Joined

/-! Batches of edits on snapshots and on plain lists of lines. A draft that shows a list of lines
still shows it after each edit of a batch, and the two refuse the same edits with the same error.
So a snapshot that represents lines commits one that represents the edited lines, and lines outside
the changed set keep their number and their text. -/

namespace LineTokens

/-- From `before` to `after`, no line is lost, and a line outside `changed` stays as it is. -/
structure LineFrame (changed : LineSet) (before after : List (List Char)) : Prop where
  length_le : before.length ≤ after.length
  same : ∀ line, line ∉ changed → after[line]? = before[line]?

namespace LineFrame

theorem refl (changed : LineSet) (lines : List (List Char)) : LineFrame changed lines lines :=
  ⟨Nat.le_refl _, fun _ _ => rfl⟩

theorem trans {changed : LineSet} {l1 l2 l3 : List (List Char)} (h1 : LineFrame changed l1 l2)
    (h2 : LineFrame changed l2 l3) : LineFrame changed l1 l3 :=
  ⟨Nat.le_trans h1.length_le h2.length_le, fun line hl => (h2.same line hl).trans (h1.same line hl)⟩

theorem mono {changed changed' : LineSet} {l1 l2 : List (List Char)} (h : LineFrame changed l1 l2)
    (hsub : ∀ line ∈ changed, line ∈ changed') : LineFrame changed' l1 l2 :=
  ⟨h.length_le, fun line hl => h.same line fun hm => hl (hsub line hm)⟩

end LineFrame

theorem exists_split {lines : List (List Char)} {line : Nat} (h : line < lines.length) :
    ∃ before after, lines = before ++ lines[line] :: after ∧ before.length = line :=
  ⟨lines.take line, lines.drop (line + 1), by simp, by simp [Nat.le_of_lt h]⟩

/-! ### Snapshots that represent lines -/

namespace Snapshot.Represents

variable {s : Snapshot} {lines : List (List Char)}

theorem noFeed (h : s.Represents lines) : ∀ line ∈ lines, '\n' ∉ line :=
  fun line hl => (Text.hasBreak_eq_false_iff.mp (h.unbroken line hl)).1

theorem lineBounds?_eq (h : s.Represents lines) {before after : List (List Char)}
    {line : List Char} (hlines : lines = before ++ line :: after) :
    s.lineBounds? before.length =
      some ((Text.endLines before).length, (Text.endLines before).length + line.length) := by
  subst hlines
  obtain ⟨hstart, hstop⟩ := FlatText.lineBounds?_joinLines h.noFeed
  have hcount : s.lineCount = before.length + (after.length + 1) := by
    simpa using h.lineCount_eq
  rw [lineBounds?, FlatText.lineBounds?, if_neg (by omega), h.text_eq, hstart]
  by_cases hafter : after = []
  · subst hafter
    rw [if_neg (by simp at hcount; omega), Text.joinLines_eq_append]
    simp
  · have : 0 < after.length := List.length_pos_iff.mpr hafter
    rw [if_pos (by omega), hstop hafter]
    rfl

theorem line?_eq (h : s.Represents lines) (line : Nat) : s.line? line = lines[line]? := by
  by_cases hline : line < lines.length
  · obtain ⟨before, after, hsplit, rfl⟩ := exists_split hline
    have htext : s.text = Text.endLines before ++ lines[before.length] ++ Text.startLines after :=
      h.text_eq.trans ((congrArg _ hsplit).trans (Text.joinLines_eq_append _ _ _))
    rw [line?, h.lineBounds?_eq hsplit, List.getElem?_eq_getElem hline, htext]
    simp [FlatText.slice]
  · rw [line?, lineBounds?, FlatText.lineBounds?, if_pos (by have := h.lineCount_eq; omega),
      List.getElem?_eq_none (by omega)]
    rfl

theorem lines_eq (h : s.Represents lines) : s.lines = lines := by
  have hline : s.line? = fun line => lines[line]? := funext h.line?_eq
  rw [Snapshot.lines, hline, h.lineCount_eq]
  clear h hline
  induction lines with
  | nil => rfl
  | cons line lines ih =>
    rw [List.length_cons, List.range_succ_eq_map, List.filterMap_cons, List.filterMap_map]
    simpa [Function.comp_def] using ih

end Snapshot.Represents

/-! ### Drafts that show a list of lines -/

/-- The draft is what the flat form of a batch keeps for `list`. -/
structure Draft.Shows (draft : Draft) (list : LineList) : Prop where
  text_eq : draft.text = Text.joinLines list.lines
  lineCount_eq : draft.lineCount = list.lines.length
  length_eq : draft.length = list.lines.flatten.length
  unbroken : ∀ line ∈ list.lines, Text.hasBreak line = false
  changed_eq : draft.changed = list.changed

theorem Snapshot.Represents.shows {s : Snapshot} {lines : List (List Char)}
    (h : s.Represents lines) : s.draft.Shows ⟨lines, .empty⟩ :=
  ⟨h.text_eq, h.lineCount_eq, h.length_eq, h.unbroken, rfl⟩

theorem Text.hasBreak_append (first second : List Char) :
    hasBreak (first ++ second) = (hasBreak first || hasBreak second) := by
  simp [hasBreak]

theorem Text.hasBreak_of_subset {text part : List Char} (h : hasBreak text = false)
    (hsub : part ⊆ text) : hasBreak part = false := by
  simp only [hasBreak, List.any_eq_false] at h ⊢
  exact fun c hc => h c (hsub hc)

namespace Draft.Shows

variable {draft : Draft} {list : LineList}

/-- The snapshot that a draft would commit. -/
theorem represents (h : draft.Shows list) (version : Nat) :
    Snapshot.Represents ⟨draft.text, draft.lineCount, draft.length, version⟩ list.lines :=
  ⟨h.text_eq, h.lineCount_eq, h.length_eq, h.unbroken⟩

theorem lineBounds?_eq (h : draft.Shows list) {before after : List (List Char)}
    {line : List Char} (hlines : list.lines = before ++ line :: after) :
    draft.text.lineBounds? draft.lineCount before.length =
      some ((Text.endLines before).length, (Text.endLines before).length + line.length) :=
  (h.represents 0).lineBounds?_eq hlines

theorem splice_text (before after line : List Char) {edit : Edit}
    (hfits : edit.stop ≤ line.length) :
    FlatText.insertAt (FlatText.remove (before ++ line ++ after) (before.length + edit.column)
        edit.deleteLength) (before.length + edit.column) edit.inserted =
      before ++ LineList.spliceLine line edit ++ after := by
  have hcolumn : edit.column ≤ line.length := by unfold Edit.stop at hfits; omega
  have hremoved : FlatText.remove (before ++ line ++ after) (before.length + edit.column)
      edit.deleteLength = before ++ line.take edit.column ++ (line.drop edit.stop ++ after) := by
    rw [FlatText.remove, Nat.add_assoc, List.append_assoc, List.take_length_add_append,
      List.drop_length_add_append, List.take_append_of_le_length hcolumn,
      ← Edit.stop, List.drop_append_of_le_length hfits]
  have hlength : (before ++ line.take edit.column).length = before.length + edit.column := by
    simp [hcolumn]
  rw [hremoved, FlatText.insertAt, ← hlength, List.take_left, List.drop_left]
  simp [LineList.spliceLine]

theorem length_spliceLine {line : List Char} {edit : Edit} (hfits : edit.stop ≤ line.length) :
    (LineList.spliceLine line edit).length + edit.deleteLength =
      line.length + edit.inserted.length := by
  unfold Edit.stop at hfits
  simp only [LineList.spliceLine, Edit.stop, List.length_append, List.length_take, List.length_drop]
  omega

theorem splice (h : draft.Shows list) {edit : Edit} {before after : List (List Char)}
    {line : List Char} (hlines : list.lines = before ++ line :: after)
    (hbefore : before.length = edit.line) (hins : Text.hasBreak edit.inserted = false)
    (hfits : edit.stop ≤ line.length) :
    (draft.splice (Text.endLines before).length edit).Shows
      ⟨list.lines.set edit.line (LineList.spliceLine line edit),
        list.changed.insert edit.line⟩ := by
  have hset : list.lines.set edit.line (LineList.spliceLine line edit) =
      before ++ LineList.spliceLine line edit :: after := by
    rw [hlines, ← hbefore, List.set_append_right _ _ (Nat.le_refl _)]
    simp
  refine ⟨?_, ?_, ?_, ?_, ?_⟩
  · rw [Draft.splice, hset, h.text_eq, hlines, Text.joinLines_eq_append, Text.joinLines_eq_append]
    exact splice_text _ _ _ hfits
  · simpa [Draft.splice] using h.lineCount_eq
  · have hsum := h.length_eq
    have hline := length_spliceLine hfits
    have hdelete : edit.deleteLength ≤ line.length := by unfold Edit.stop at hfits; omega
    rw [hlines] at hsum
    simp only [Draft.splice, hset]
    simp only [List.flatten_append, List.flatten_cons, List.length_append] at hsum ⊢
    omega
  · intro l hl
    rw [hset] at hl
    have hold : ∀ l ∈ before ++ line :: after, Text.hasBreak l = false := hlines ▸ h.unbroken
    rcases List.mem_append.mp hl with hl | hl
    · exact hold l (by simp [hl])
    rcases List.mem_cons.mp hl with rfl | hl
    · have hline := hold line (by simp)
      rw [LineList.spliceLine, Text.hasBreak_append, Text.hasBreak_append, hins,
        Text.hasBreak_of_subset hline (List.take_subset _ _),
        Text.hasBreak_of_subset hline (List.drop_subset _ _)]
      rfl
    · exact hold l (by simp [hl])
  · simp [Draft.splice, h.changed_eq]

theorem append (h : draft.Shows list) {edit : Edit} (hins : Text.hasBreak edit.inserted = false) :
    (draft.append edit).Shows
      ⟨list.lines ++ [edit.inserted], list.changed.insert edit.line⟩ := by
  refine ⟨?_, ?_, ?_, ?_, ?_⟩
  · rw [Draft.append, Draft.appendLine, Text.joinLines_concat, h.text_eq, h.lineCount_eq]
  · simp [Draft.append, h.lineCount_eq]
  · simp [Draft.append, h.length_eq]
  · intro l hl
    rcases List.mem_append.mp hl with hl | hl
    · exact h.unbroken l hl
    · rw [List.mem_singleton.mp hl]
      exact hins
  · simp [Draft.append, h.changed_eq]

end Draft.Shows

/-- Outcomes of the two forms of a batch: the same error, or a draft and the list it shows. -/
inductive Agrees : Except EditError Draft → Except EditError LineList → Prop
  | refused (error : EditError) : Agrees (.error error) (.error error)
  | done {draft : Draft} {list : LineList} (shows_ : draft.Shows list) :
      Agrees (.ok draft) (.ok list)

theorem Draft.Shows.step {draft : Draft} {list : LineList} (h : draft.Shows list) (edit : Edit) :
    Agrees (draft.step edit) (list.step edit) := by
  unfold Draft.step LineList.step
  cases hins : Text.hasBreak edit.inserted with
  | true => simpa using Agrees.refused _
  | false =>
    simp only [Bool.false_eq_true, if_false]
    by_cases hline : edit.line < list.lines.length
    · obtain ⟨before, after, hsplit, hlen⟩ := exists_split hline
      have hbounds := h.lineBounds?_eq hsplit
      rw [hlen] at hbounds
      rw [hbounds, List.getElem?_eq_getElem hline]
      simp only [Nat.add_sub_cancel_left]
      split
      · rename_i hfits
        split
        · exact .done h
        · exact .done (h.splice hsplit hlen hins hfits)
      · exact .refused _
    · have hnone : draft.text.lineBounds? draft.lineCount edit.line = none := by
        rw [FlatText.lineBounds?, if_pos (by have := h.lineCount_eq; omega)]
      rw [hnone, List.getElem?_eq_none (by omega)]
      simp only [h.lineCount_eq]
      split
      · exact .done (h.append hins)
      · exact .refused _

theorem Draft.Shows.run {draft : Draft} {list : LineList} (h : draft.Shows list)
    (edits : List Edit) : Agrees (draft.run edits) (list.run edits) := by
  induction edits generalizing draft list with
  | nil => exact .done h
  | cons edit rest ih =>
    have hstep := h.step edit
    rw [Draft.run, LineList.run]
    cases hd : draft.step edit with
    | error e =>
      rw [hd] at hstep
      cases hl : list.step edit with
      | error e' =>
        rw [hl] at hstep
        cases hstep
        exact .refused _
      | ok l => rw [hl] at hstep; cases hstep
    | ok d =>
      rw [hd] at hstep
      cases hl : list.step edit with
      | error e' => rw [hl] at hstep; cases hstep
      | ok l =>
        rw [hl] at hstep
        cases hstep with
        | done hshows => exact ih hshows

/-! ### What a batch leaves as it is -/

namespace LineList

theorem step_frame {list list' : LineList} {edit : Edit} (h : list.step edit = .ok list') :
    (∀ line ∈ list.changed, line ∈ list'.changed) ∧
      LineFrame list'.changed list.lines list'.lines := by
  unfold step at h
  split at h
  · cases h
  split at h
  · rename_i text hline
    split at h
    · split at h
      · cases h
        exact ⟨fun _ hl => hl, .refl _ _⟩
      · cases h
        refine ⟨fun line hl => by simp [hl], by simp, fun line hl => ?_⟩
        rw [List.getElem?_set_ne]
        rintro rfl
        exact hl (by simp)
    · cases h
  · split at h
    · rename_i hcond
      cases h
      refine ⟨fun line hl => by simp [hl], by simp, fun line hl => ?_⟩
      have hne : line ≠ list.lines.length := by
        rintro rfl
        exact hl (by simp [hcond.1])
      rcases Nat.lt_or_gt_of_ne hne with hlt | hgt
      · exact List.getElem?_append_left hlt
      · rw [List.getElem?_eq_none (by simp; omega), List.getElem?_eq_none (by omega)]
    · cases h

theorem run_frame {list list' : LineList} {edits : List Edit} (h : list.run edits = .ok list') :
    (∀ line ∈ list.changed, line ∈ list'.changed) ∧
      LineFrame list'.changed list.lines list'.lines := by
  induction edits generalizing list with
  | nil =>
    cases h
    exact ⟨fun _ hl => hl, .refl _ _⟩
  | cons edit rest ih =>
    rw [run] at h
    split at h
    · cases h
    · rename_i next hstep
      obtain ⟨hsub1, hframe1⟩ := step_frame hstep
      obtain ⟨hsub2, hframe2⟩ := ih h
      exact ⟨fun line hl => hsub2 line (hsub1 line hl), (hframe1.mono hsub2).trans hframe2⟩

end LineList

/-! ### Snapshots after a batch -/

namespace Snapshot

/-- The snapshot stands for some lines. -/
def WellFormed (s : Snapshot) : Prop := s.Represents s.lines

theorem Represents.wellFormed {s : Snapshot} {lines : List (List Char)} (h : s.Represents lines) :
    s.WellFormed := by
  rw [WellFormed, h.lines_eq]
  exact h

theorem wellFormed_empty : empty.WellFormed := represents_empty.wellFormed

/-- A batch on a snapshot has the outcome that it has on the lines. -/
theorem Represents.apply_eq {s : Snapshot} {lines : List (List Char)} (h : s.Represents lines)
    (edits : List Edit) :
    (∃ error, LineList.edit lines edits = .error error ∧ s.apply edits = .error error) ∨
      ∃ draft list, LineList.edit lines edits = .ok list ∧ s.apply edits = .ok (s.commit? draft) ∧
        draft.Shows list := by
  have hrun := h.shows.run (Edit.byColumn edits)
  rw [LineList.edit, apply]
  cases hd : s.draft.run (Edit.byColumn edits) with
  | error e =>
    rw [hd] at hrun
    cases hl : LineList.run ⟨lines, .empty⟩ (Edit.byColumn edits) with
    | error e' =>
      rw [hl] at hrun
      cases hrun
      exact .inl ⟨_, rfl, rfl⟩
    | ok l => rw [hl] at hrun; cases hrun
  | ok d =>
    rw [hd] at hrun
    cases hl : LineList.run ⟨lines, .empty⟩ (Edit.byColumn edits) with
    | error e' => rw [hl] at hrun; cases hrun
    | ok l =>
      rw [hl] at hrun
      cases hrun with
      | done hshows => exact .inr ⟨d, l, rfl, rfl, hshows⟩

/-- What a batch that changes something commits. -/
theorem WellFormed.apply_change {s : Snapshot} (h : s.WellFormed) {edits : List Edit}
    {change : Change} (happly : s.apply edits = .ok (some change)) :
    change.snapshot.WellFormed ∧ change.snapshot.version = s.version + 1 ∧
      LineFrame change.changedLines s.lines change.snapshot.lines := by
  rcases h.apply_eq edits with ⟨error, -, herror⟩ | ⟨draft, list, hlist, hok, hshows⟩
  · rw [herror] at happly
    cases happly
  · rw [hok, commit?] at happly
    split at happly
    · cases happly
    · cases happly
      have hrep := hshows.represents (s.version + 1)
      refine ⟨hrep.wellFormed, rfl, ?_⟩
      have hframe := (LineList.run_frame hlist).2
      rw [← hrep.lines_eq] at hframe
      rw [hshows.changed_eq]
      exact hframe

/-- A change is one more version, and has changed some line. -/
theorem apply_eq_some {s : Snapshot} {edits : List Edit} {change : Change}
    (h : s.apply edits = .ok (some change)) :
    change.snapshot.version = s.version + 1 ∧ change.changedLines.isEmpty = false := by
  unfold apply at h
  split at h
  · cases h
  · rename_i draft _
    have hcommit : s.commit? draft = some change := Except.ok.inj h
    unfold commit? at hcommit
    split at hcommit
    · cases hcommit
    · rename_i hchanged
      cases hcommit
      exact ⟨rfl, Bool.eq_false_iff.mpr hchanged⟩

theorem WellFormed.length_lines {s : Snapshot} (h : s.WellFormed) : s.lines.length = s.lineCount :=
  h.lineCount_eq.symm

theorem WellFormed.line?_eq {s : Snapshot} (h : s.WellFormed) (line : Nat) :
    s.line? line = s.lines[line]? :=
  Represents.line?_eq h line

end Snapshot

end LineTokens
