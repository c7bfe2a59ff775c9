import LineTokens.Buffer.Checked
import LineTokens.Buffer.TextBuffer
import LineTokens.Proofs.Buffer.Commits
import Mathlib.Algebra.GroupWithZero.Nat

/-! What a snapshot stands for, after any batches on an empty buffer. The flat text, the count and
the length kept beside it are those of one list of lines, which the text and the count determine. No
look-up of a line or an offset goes out of range on the way, and no subtraction below zero: the
guarded forms of reading and of applying a batch have an outcome, the same as the plain forms. -/

namespace LineTokens

theorem sub?_of_le {m n : Nat} (h : n ≤ m) : sub? m n = some (m - n) := if_pos h

/-! ### Line feeds in joined lines -/

namespace Text

theorem count_feed_startLines {lines : List (List Char)} (h : ∀ line ∈ lines, '\n' ∉ line) :
    (startLines lines).count '\n' = lines.length := by
  induction lines with
  | nil => rfl
  | cons line lines ih =>
    have hline : line.count '\n' = 0 := List.count_eq_zero.mpr (h line List.mem_cons_self)
    rw [startLines_cons, List.cons_append, List.count_cons_self, List.count_append, hline,
      ih fun l hl => h l (List.mem_cons_of_mem _ hl), List.length_cons, Nat.zero_add]

/-- A line feed between each two lines, and no other. -/
theorem count_feed_joinLines {lines : List (List Char)} (h : ∀ line ∈ lines, '\n' ∉ line) :
    (joinLines lines).count '\n' = lines.length - 1 := by
  cases lines with
  | nil => rfl
  | cons line lines =>
    have hline : line.count '\n' = 0 := List.count_eq_zero.mpr (h line List.mem_cons_self)
    rw [joinLines_cons, List.count_append, hline,
      count_feed_startLines fun l hl => h l (List.mem_cons_of_mem _ hl), List.length_cons]
    omega

theorem length_joinLines {lines : List (List Char)} :
    (joinLines lines).length = lines.flatten.length + (lines.length - 1) := by
  induction lines with
  | nil => rfl
  | cons line lines ih =>
    cases lines with
    | nil => simp
    | cons next lines =>
      rw [joinLines_cons_cons, List.length_append, List.length_cons, ih]
      simp only [List.flatten_cons, List.length_append, List.length_cons]
      omega

/-- Lines without line feeds are known from the joined text and their number. -/
theorem eq_of_joinLines_eq {lines lines' : List (List Char)}
    (h : ∀ line ∈ lines, hasBreak line = false) (h' : ∀ line ∈ lines', hasBreak line = false)
    (htext : joinLines lines = joinLines lines') (hcount : lines.length = lines'.length) :
    lines = lines' := by
  by_cases hnil : lines = []
  · subst hnil
    exact (List.length_eq_zero_iff.mp hcount.symm).symm
  · have hnil' : lines' ≠ [] := by
      rintro rfl
      exact hnil (List.length_eq_zero_iff.mp hcount)
    rw [← splitLines_joinLines hnil h, htext, splitLines_joinLines hnil' h']

end Text

/-! ### Guarded look-ups -/

namespace Snapshot.Represents

variable {s : Snapshot} {lines : List (List Char)}

theorem lineTotal_eq (h : s.Represents lines) : s.text.lineTotal = lines.length - 1 + 1 := by
  rw [FlatText.lineTotal, h.text_eq, Text.count_feed_joinLines h.noFeed]

/-- Every line number up to the number of lines is one that the text can be asked for. -/
theorem lineStart?_eq (h : s.Represents lines) {line : Nat} (hline : line ≤ lines.length) :
    s.text.lineStart? line = some (s.text.lineStart line) := by
  refine if_pos ?_
  rw [h.lineTotal_eq]
  omega

theorem lineBoundsChecked?_eq (h : s.Represents lines) (line : Nat) :
    s.text.lineBoundsChecked? s.lineCount line = some (s.lineBounds? line) := by
  have hcount : s.lineCount = lines.length := h.lineCount_eq
  rw [lineBounds?, FlatText.lineBoundsChecked?, FlatText.lineBounds?]
  by_cases hline : s.lineCount ≤ line
  · rw [if_pos hline, if_pos hline]
  rw [if_neg hline, if_neg hline, h.lineStart?_eq (by omega)]
  by_cases hnext : line + 1 < s.lineCount
  · obtain ⟨before, after, hsplit, rfl⟩ := exists_split (show line < lines.length by omega)
    have hafter : after ≠ [] := by
      rintro rfl
      rw [hsplit, List.length_append, List.length_singleton] at hcount
      omega
    have hnoFeed := h.noFeed
    rw [hsplit] at hnoFeed
    -- The line feed that ends the line is the character before the next line.
    have hpos : 1 ≤ s.text.lineStart (before.length + 1) := by
      rw [h.text_eq, hsplit, (FlatText.lineBounds?_joinLines hnoFeed).2 hafter]
      omega
    have hnextStart := h.lineStart?_eq (show before.length + 1 ≤ lines.length by omega)
    simp only [if_pos hnext, hnextStart, sub?_of_le hpos, Option.bind_eq_bind, Option.bind_some]
    rfl
  · simp only [if_neg hnext, Option.bind_eq_bind, Option.bind_some]
    rfl

/-- The bounds of a line lie in the text, in order. -/
theorem bounds_le (h : s.Represents lines) {line start stop : Nat}
    (hbounds : s.lineBounds? line = some (start, stop)) :
    start ≤ stop ∧ stop ≤ s.text.length := by
  have hline : line < lines.length := by
    by_contra hge
    rw [lineBounds?, FlatText.lineBounds?, if_pos (by have := h.lineCount_eq; omega)] at hbounds
    cases hbounds
  obtain ⟨before, after, hsplit, rfl⟩ := exists_split hline
  rw [h.lineBounds?_eq hsplit] at hbounds
  cases hbounds
  have htext : s.text = Text.endLines before ++ lines[before.length] ++ Text.startLines after :=
    h.text_eq.trans ((congrArg _ hsplit).trans (Text.joinLines_eq_append _ _ _))
  constructor
  · omega
  · rw [htext]
    simp

/-- Reading a line does not fail. -/
theorem lineChecked?_eq (h : s.Represents lines) (line : Nat) :
    s.lineChecked? line = some lines[line]? := by
  rw [← h.line?_eq, lineChecked?, h.lineBoundsChecked?_eq, line?]
  cases hbounds : s.lineBounds? line with
  | none => rfl
  | some bounds =>
    obtain ⟨start, stop⟩ := bounds
    simp only [Option.bind_eq_bind, Option.bind_some, FlatText.slice?, if_pos (h.bounds_le hbounds)]
    rfl

theorem lineLength?_eq (h : s.Represents lines) (line : Nat) :
    s.lineLength? line = lines[line]?.map List.length := by
  rw [← h.line?_eq, lineLength?, line?, Option.map_map]
  cases hbounds : s.lineBounds? line with
  | none => rfl
  | some bounds =>
    obtain ⟨start, stop⟩ := bounds
    obtain ⟨-, hstop⟩ := h.bounds_le hbounds
    simp only [Option.map_some, Function.comp_apply, FlatText.slice, List.length_take,
      List.length_drop]
    rw [Nat.min_eq_left (by omega)]

theorem lineLengthChecked?_eq (h : s.Represents lines) (line : Nat) :
    s.lineLengthChecked? line = some (lines[line]?.map List.length) := by
  rw [← h.lineLength?_eq, lineLengthChecked?, h.lineBoundsChecked?_eq, lineLength?]
  cases hbounds : s.lineBounds? line with
  | none => rfl
  | some bounds =>
    obtain ⟨start, stop⟩ := bounds
    simp only [Option.bind_eq_bind, Option.bind_some, sub?_of_le (h.bounds_le hbounds).1]
    rfl

end Snapshot.Represents

/-! ### Guarded batches -/

/-- Appending goes to the end of the text, which always exists. -/
theorem Draft.appendChecked?_eq (draft : Draft) (edit : Edit) :
    draft.appendChecked? edit = some (draft.append edit) := by
  have hinsert : ∀ (text : FlatText) (line : List Char),
      text.insertAt? text.length line = some (text ++ line) := by
    intro text line
    rw [FlatText.insertAt?, if_pos (Nat.le_refl _), FlatText.insertAt]
    simp
  unfold appendChecked? endedChecked? append appendLine
  by_cases hcount : draft.lineCount = 0
  · simp [hcount, hinsert]
  · simp [hcount, hinsert]

namespace Draft.Shows

variable {draft : Draft} {list : LineList}

theorem lineBoundsChecked?_eq (h : draft.Shows list) (line : Nat) :
    draft.text.lineBoundsChecked? draft.lineCount line =
      some (draft.text.lineBounds? draft.lineCount line) :=
  (h.represents 0).lineBoundsChecked?_eq line

theorem spliceChecked?_eq (h : draft.Shows list) {edit : Edit} {before after : List (List Char)}
    {line : List Char} (hlines : list.lines = before ++ line :: after)
    (hfits : edit.stop ≤ line.length) :
    draft.spliceChecked? (Text.endLines before).length edit =
      some (draft.splice (Text.endLines before).length edit) := by
  have htext : draft.text = Text.endLines before ++ line ++ Text.startLines after := by
    rw [h.text_eq, hlines, Text.joinLines_eq_append]
  have hroom : (Text.endLines before).length + edit.column + edit.deleteLength ≤
      draft.text.length := by
    unfold Edit.stop at hfits
    rw [htext, List.length_append, List.length_append]
    omega
  have hlength : edit.deleteLength ≤ draft.length := by
    unfold Edit.stop at hfits
    rw [h.length_eq, hlines, List.flatten_append, List.flatten_cons, List.length_append,
      List.length_append]
    omega
  have hremoved : (Text.endLines before).length + edit.column ≤
      (draft.text.remove ((Text.endLines before).length + edit.column) edit.deleteLength).length := by
    rw [FlatText.length_remove hroom]
    omega
  simp only [spliceChecked?, FlatText.remove?, FlatText.insertAt?, if_pos hroom, if_pos hremoved,
    sub?_of_le hlength, Option.bind_eq_bind, Option.bind_some]
  rfl

/-- One edit of a batch. -/
theorem stepChecked?_eq (h : draft.Shows list) (edit : Edit) :
    draft.stepChecked? edit = some (draft.step edit) := by
  unfold stepChecked? Draft.step
  cases hins : Text.hasBreak edit.inserted with
  | true => rfl
  | false =>
    simp only [Bool.false_eq_true, if_false, h.lineBoundsChecked?_eq, Option.bind_eq_bind,
      Option.bind_some]
    by_cases hline : edit.line < list.lines.length
    · obtain ⟨before, after, hsplit, hlen⟩ := exists_split hline
      have hbounds := h.lineBounds?_eq hsplit
      rw [hlen] at hbounds
      simp only [hbounds, sub?_of_le (Nat.le_add_right _ _), Nat.add_sub_cancel_left,
        Option.bind_some]
      split
      · rename_i hfits
        rw [h.spliceChecked?_eq hsplit hfits]
        split <;> rfl
      · rfl
    · have hnone : draft.text.lineBounds? draft.lineCount edit.line = none := by
        rw [FlatText.lineBounds?, if_pos (by have := h.lineCount_eq; omega)]
      simp only [hnone, appendChecked?_eq, Option.bind_some]
      split <;> rfl

/-- The edits of a batch, each on the draft that those before it have left. -/
theorem runChecked?_eq (h : draft.Shows list) (edits : List Edit) :
    draft.runChecked? edits = some (draft.run edits) := by
  induction edits generalizing draft list with
  | nil => rfl
  | cons edit rest ih =>
    rw [runChecked?, Draft.run, h.stepChecked?_eq]
    have hstep := h.step edit
    cases hdraft : draft.step edit with
    | error error => rfl
    | ok next =>
      rw [hdraft] at hstep
      cases hlist : list.step edit with
      | error error =>
        rw [hlist] at hstep
        cases hstep
      | ok nextList =>
        rw [hlist] at hstep
        cases hstep with
        | done hshows => exact ih hshows

/-- The length kept by hand is that of the text without the line feeds between lines. -/
theorem balanced (h : draft.Shows list) : draft.Balanced := by
  rw [Balanced, h.text_eq, h.lineCount_eq, h.length_eq, Text.length_joinLines,
    sub?_of_le (Nat.le_add_left _ _), Nat.add_sub_cancel]

end Draft.Shows

/-- Applying a batch does not fail. -/
theorem Snapshot.Represents.applyChecked?_eq {s : Snapshot} {lines : List (List Char)}
    (h : s.Represents lines) (edits : List Edit) : s.applyChecked? edits = some (s.apply edits) := by
  rw [applyChecked?, apply, h.shows.runChecked?_eq]
  have hrun := h.shows.run (Edit.byColumn edits)
  cases hdraft : s.draft.run (Edit.byColumn edits) with
  | error error => rfl
  | ok draft =>
    rw [hdraft] at hrun
    cases hlist : LineList.run ⟨lines, .empty⟩ (Edit.byColumn edits) with
    | error error =>
      rw [hlist] at hrun
      cases hrun
    | ok list =>
      rw [hlist] at hrun
      cases hrun with
      | done hshows => exact if_pos (.inr hshows.balanced)

/-! ### Batches one after another -/

namespace TextBuffer

/-- The buffer after batches in turn, and the changes that those of them committed which were not
refused and changed something. -/
def replaceAll (buffer : TextBuffer) : List (List Edit) → TextBuffer × Commits
  | [] => (buffer, [])
  | edits :: rest =>
    match buffer.replace edits with
    | .error _ => buffer.replaceAll rest
    | .ok (next, change) => ((next.replaceAll rest).1, change.toList ++ (next.replaceAll rest).2)

theorem replaceAll_append (buffer : TextBuffer) (batches more : List (List Edit)) :
    buffer.replaceAll (batches ++ more) =
      (((buffer.replaceAll batches).1.replaceAll more).1,
        (buffer.replaceAll batches).2 ++ ((buffer.replaceAll batches).1.replaceAll more).2) := by
  induction batches generalizing buffer with
  | nil => rfl
  | cons edits batches ih =>
    rw [List.cons_append, replaceAll, replaceAll]
    cases buffer.replace edits with
    | error error => exact ih buffer
    | ok result =>
      obtain ⟨next, change⟩ := result
      simp only [ih next, List.append_assoc]

/-- One batch leaves a snapshot that stands for some lines, and counts as a version if it commits. -/
theorem replace_wellFormed {buffer next : TextBuffer} {edits : List Edit} {change : Option Change}
    (h : buffer.current.WellFormed) (hreplace : buffer.replace edits = .ok (next, change)) :
    next.current.WellFormed ∧
      next.current.version = buffer.current.version + change.toList.length := by
  unfold replace at hreplace
  split at hreplace
  · cases hreplace
  · cases hreplace
    exact ⟨h, rfl⟩
  · rename_i committed happly
    cases hreplace
    obtain ⟨hwell, hversion, -⟩ := h.apply_change happly
    exact ⟨hwell, hversion⟩

theorem replaceAll_wellFormed (batches : List (List Edit)) {buffer : TextBuffer}
    (h : buffer.current.WellFormed) :
    (buffer.replaceAll batches).1.current.WellFormed ∧
      (buffer.replaceAll batches).1.current.version =
        buffer.current.version + (buffer.replaceAll batches).2.length := by
  induction batches generalizing buffer with
  | nil => exact ⟨h, rfl⟩
  | cons edits rest ih =>
    rw [replaceAll]
    cases hreplace : buffer.replace edits with
    | error error => exact ih h
    | ok result =>
      obtain ⟨next, change⟩ := result
      obtain ⟨hnext, hversion⟩ := replace_wellFormed h hreplace
      obtain ⟨hwell, hlast⟩ := ih hnext
      refine ⟨hwell, ?_⟩
      rw [hlast, hversion, List.length_append, Nat.add_assoc]

/-- Whatever batches an empty buffer has gone through, there are lines without line breaks which
its snapshot stands for and reads back as, known from its text and their number; and neither reading
a line nor a further batch asks the text for what it does not have. -/
theorem snapshot_exact_after_batches (batches : List (List Edit)) :
    let s := (empty.replaceAll batches).1.current
    ∃ lines : List (List Char),
      (∀ line ∈ lines, '\n' ∉ line ∧ '\r' ∉ line) ∧
      s.text = Text.joinLines lines ∧
      s.lineCount = lines.length ∧
      s.length = (lines.map List.length).sum ∧
      s.version = (empty.replaceAll batches).2.length ∧
      s.lines = lines ∧
      (∀ line, s.line? line = lines[line]? ∧ s.lineChecked? line = some lines[line]?) ∧
      (∀ line, s.lineLength? line = lines[line]?.map List.length ∧
        s.lineLengthChecked? line = some (lines[line]?.map List.length)) ∧
      (∀ other : List (List Char), (∀ line ∈ other, '\n' ∉ line ∧ '\r' ∉ line) →
        Text.joinLines other = s.text → other.length = s.lineCount → other = lines) ∧
      ∀ edits, s.applyChecked? edits = some (s.apply edits) := by
  intro s
  have hempty : empty.current.WellFormed := Snapshot.wellFormed_empty
  obtain ⟨hwell, hversion⟩ := replaceAll_wellFormed batches hempty
  have h : s.Represents s.lines := hwell
  refine ⟨s.lines, fun line hl => Text.hasBreak_eq_false_iff.mp (h.unbroken line hl), h.text_eq,
    h.lineCount_eq, ?_, hversion.trans (Nat.zero_add _), rfl,
    fun line => ⟨h.line?_eq line, h.lineChecked?_eq line⟩,
    fun line => ⟨h.lineLength?_eq line, h.lineLengthChecked?_eq line⟩, ?_, h.applyChecked?_eq⟩
  · rw [h.length_eq, List.length_flatten]
  · intro other hother htext hcount
    exact Text.eq_of_joinLines_eq (fun line hl => Text.hasBreak_eq_false_iff.mpr (hother line hl))
      h.unbroken (htext.trans h.text_eq) (hcount.trans h.lineCount_eq)

/-- A line, a batch out of range, one that changes nothing, and an edit with two lines appended. -/
example : (empty.replaceAll [[.insertLine 0 ['a', 'b']], [⟨0, 3, 0, ['x']⟩], [⟨0, 1, 0, []⟩],
    [⟨0, 1, 1, ['x', 'y']⟩, .insertLine 1 [], .insertLine 2 ['c']]]).1.current =
      ⟨['a', 'x', 'y', '\n', '\n', 'c'], 3, 4, 2⟩ := by
  decide

end TextBuffer

end LineTokens
