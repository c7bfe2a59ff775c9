import LineTokens.Proofs.Buffer.Refinement
import LineTokens.Proofs.Buffer.Representation

/-! What a batch touches. The lines that it names as changed are all there afterwards, those that it
has appended are among them, and any other line keeps its number and its text. From one batch to
all batches since a version, the same is said of the lines that none of them has named. -/

namespace LineTokens

/-- How many of the edits, worked off in order, append a line to what are `count` lines at first:
those that address the line right after the last one. -/
def Edit.appendCount (count : Nat) : List Edit → Nat
  | [] => 0
  | edit :: rest =>
    if edit.line = count then appendCount (count + 1) rest + 1 else appendCount count rest

/-! ### One batch -/

namespace LineList

/-- A step adds a line exactly if the edit addresses the line after the last one. -/
theorem length_lines_step {list next : LineList} {edit : Edit} (h : list.step edit = .ok next) :
    next.lines.length =
      if edit.line = list.lines.length then list.lines.length + 1 else list.lines.length := by
  rcases step_cases h with ⟨-, hlt, rfl⟩ | ⟨-, hlt, hlength, -⟩ | ⟨hline, hlines, -⟩
  · rw [if_neg (Nat.ne_of_lt hlt)]
  · rw [if_neg (Nat.ne_of_lt hlt), hlength]
  · rw [if_pos hline, hlines, List.length_append, List.length_singleton]

theorem length_lines_run {list last : LineList} {edits : List Edit}
    (h : list.run edits = .ok last) :
    last.lines.length = list.lines.length + Edit.appendCount list.lines.length edits := by
  induction edits generalizing list with
  | nil =>
    cases h
    rfl
  | cons edit rest ih =>
    obtain ⟨next, hstep, hrun⟩ := run_cons_eq_ok_iff.mp h
    rw [ih hrun, length_lines_step hstep, Edit.appendCount]
    split <;> omega

/-- The lines that a batch changes are there afterwards. -/
theorem lt_of_mem_changed_edit {lines : List (List Char)} {edits : List Edit} {list : LineList}
    (h : edit lines edits = .ok list) {line : Nat} (hline : line ∈ list.changed) :
    line < list.lines.length := by
  rcases (mem_changed_edit h line).mp hline with ⟨edit, hedit, rfl, -⟩ | ⟨-, hlt⟩
  · exact line_lt_of_run h (Edit.mem_byColumn.mpr hedit)
  · exact hlt

end LineList

theorem Snapshot.WellFormed.isSome_line?_iff {s : Snapshot} (h : s.WellFormed) {line : Nat} :
    (s.line? line).isSome = true ↔ line < s.lineCount := by
  rw [h.line?_eq, Option.isSome_iff_exists, ← h.length_lines]
  constructor
  · rintro ⟨text, hget⟩
    exact (List.getElem?_eq_some_iff.mp hget).1
  · exact fun hlt => ⟨_, List.getElem?_eq_getElem hlt⟩

/-- What a change may do to a snapshot: `appended` more lines, which the changed lines include; no
changed line that is not there afterwards; and any other line as before. -/
structure Snapshot.Framed (before after : Snapshot) (changed : LineSet) (appended : Nat) :
    Prop where
  lineCount_eq : after.lineCount = before.lineCount + appended
  new_mem : ∀ line, before.lineCount ≤ line → line < after.lineCount → line ∈ changed
  changed_lt : ∀ line ∈ changed, line < after.lineCount
  kept : ∀ line, line ∉ changed → after.line? line = before.line? line

/-- A batch that is done, be it that it changes something or not. -/
theorem Snapshot.WellFormed.framed {s : Snapshot} (h : s.WellFormed) {edits : List Edit}
    {outcome : Option Change} (happly : s.apply edits = .ok outcome) :
    s.Framed ((outcome.map Change.snapshot).getD s) (changedLines outcome)
      (Edit.appendCount s.lineCount (Edit.byColumn edits)) := by
  obtain ⟨list, hedit, rfl⟩ := (Represents.apply_eq_ok_iff h).mp happly
  have hafter := Represents.after h hedit
  have hcount : s.lineCount = s.lines.length := h.lineCount_eq
  -- The machine's set of changed lines, which is empty if nothing is committed.
  have hchanged : changedLines (list.change? (s.version + 1)) = list.changed := by
    cases hchange : list.change? (s.version + 1) with
    | none =>
      have hempty := LineSet.isEmpty_iff.mp (LineList.change?_eq_none_iff.mp hchange)
      exact LineSet.eq_of_mem_iff fun line => iff_of_false LineSet.mem_empty.mp (hempty line)
    | some change => exact (LineList.change?_eq_some_iff.mp hchange).2.2
  rw [hchanged]
  constructor
  case lineCount_eq =>
    rw [hafter.lineCount_eq, LineList.length_lines_run hedit, hcount]
  case new_mem =>
    intro line hle hlt
    rw [hafter.lineCount_eq] at hlt
    exact (LineList.mem_changed_edit hedit line).mpr (.inr ⟨hcount ▸ hle, hlt⟩)
  case changed_lt =>
    intro line hline
    rw [hafter.lineCount_eq]
    exact LineList.lt_of_mem_changed_edit hedit hline
  case kept =>
    intro line hline
    rw [hafter.line?_eq, h.line?_eq]
    exact (LineList.run_frame hedit).2.same line hline

/-! ### All commits -/

namespace Commits.Chained

variable {commits : Commits}

theorem framed (h : commits.Chained) {k : Nat} {change : Change} (hk : commits[k]? = some change) :
    ∃ appended, (commits.snapshot k).Framed (commits.snapshot (k + 1)) change.changedLines
      appended := by
  have hlt : k < commits.length := (List.getElem?_eq_some_iff.mp hk).1
  obtain ⟨batch, happly⟩ := h k change hk
  rw [snapshot_succ hk]
  exact ⟨_, (h.wellFormed hlt.le).framed happly⟩

theorem lineCount_le (h : commits.Chained) {a b : Nat} (hab : a ≤ b) (hb : b ≤ commits.length) :
    (commits.snapshot a).lineCount ≤ (commits.snapshot b).lineCount := by
  rw [← (h.wellFormed (hab.trans hb)).length_lines, ← (h.wellFormed hb).length_lines]
  exact h.length_lines_le hab hb

/-- A line that a commit has named exists in every later version. -/
theorem lt_lineCount (h : commits.Chained) {k b : Nat} {change : Change}
    (hk : commits[k]? = some change) (hkb : k < b) (hb : b ≤ commits.length) {line : Nat}
    (hline : line ∈ change.changedLines) : line < (commits.snapshot b).lineCount := by
  obtain ⟨_, hframed⟩ := h.framed hk
  exact (hframed.changed_lt line hline).trans_le (h.lineCount_le hkb hb)

/-- A line that was appended since a version is named by a commit since then. -/
theorem exists_changed_of_le (h : commits.Chained) {a b line : Nat} (hab : a ≤ b)
    (hb : b ≤ commits.length) (hle : (commits.snapshot a).lineCount ≤ line)
    (hlt : line < (commits.snapshot b).lineCount) :
    ∃ k change, a ≤ k ∧ k < b ∧ commits[k]? = some change ∧ line ∈ change.changedLines := by
  induction b, hab using Nat.le_induction with
  | base => omega
  | succ b hab ih =>
    by_cases hbefore : line < (commits.snapshot b).lineCount
    · obtain ⟨k, change, hak, hkb, hk, hline⟩ := ih (by omega) hbefore
      exact ⟨k, change, hak, by omega, hk, hline⟩
    · have hget : commits[b]? = some commits[b] := List.getElem?_eq_getElem hb
      obtain ⟨_, hframed⟩ := h.framed hget
      exact ⟨b, _, hab, Nat.lt_succ_self b, hget, hframed.new_mem line (by omega) hlt⟩

end Commits.Chained

namespace TextBuffer

theorem replace_eq_ok {buffer next : TextBuffer} {edits : List Edit} {change : Option Change}
    (h : buffer.replace edits = .ok (next, change)) :
    buffer.current.apply edits = .ok change ∧
      next.current = (change.map Change.snapshot).getD buffer.current := by
  unfold replace at h
  split at h
  · cases h
  · rename_i happly
    cases h
    exact ⟨happly, rfl⟩
  · rename_i committed happly
    cases h
    exact ⟨happly, rfl⟩

/-- The commits of batches on a buffer go on from those that have led to its snapshot. -/
theorem replaceAll_chained (batches : List (List Edit)) {buffer : TextBuffer} {commits : Commits}
    (h : commits.Chained) (hcurrent : commits.latest = buffer.current) :
    Commits.Chained (commits ++ (buffer.replaceAll batches).2) ∧
      Commits.latest (commits ++ (buffer.replaceAll batches).2) =
        (buffer.replaceAll batches).1.current := by
  induction batches generalizing buffer commits with
  | nil =>
    rw [replaceAll, List.append_nil]
    exact ⟨h, hcurrent⟩
  | cons edits rest ih =>
    rw [replaceAll]
    cases hreplace : buffer.replace edits with
    | error error => exact ih h hcurrent
    | ok result =>
      obtain ⟨next, change⟩ := result
      obtain ⟨happly, hnext⟩ := replace_eq_ok hreplace
      cases change with
      | none => exact ih h (hcurrent.trans hnext.symm)
      | some change =>
        simp only [Option.toList_some, ← List.append_assoc]
        refine ih (h.concat (by rwa [hcurrent])) ?_
        rw [Commits.latest_concat]
        exact hnext.symm

/-- Whatever batches an empty buffer has gone through: a further batch that is not refused adds as
many lines as it appends, names all of them and no line that is not there afterwards, and leaves
every line that it does not name. So from one version to a later one, a line that no commit in
between has named is the same, and the lines named by the commits so far all exist. -/
theorem batches_frame_lines (batches : List (List Edit)) :
    let buffer := (empty.replaceAll batches).1
    let commits := (empty.replaceAll batches).2
    (∀ edits next change, buffer.replace edits = .ok (next, change) →
      buffer.current.Framed next.current (changedLines change)
        (Edit.appendCount buffer.current.lineCount (Edit.byColumn edits))) ∧
    commits.snapshot commits.length = buffer.current ∧
    ∀ a b, a ≤ b → b ≤ commits.length →
      (commits.snapshot a).version = a ∧ (commits.snapshot b).version = b ∧
      (∀ line, (∀ k change, a ≤ k → k < b → commits[k]? = some change →
          line ∉ change.changedLines) →
        (commits.snapshot b).line? line = (commits.snapshot a).line? line) ∧
      ∀ k change, k < b → commits[k]? = some change →
        ∀ line ∈ change.changedLines, line < (commits.snapshot b).lineCount := by
  intro buffer commits
  have hempty : empty.current.WellFormed := Snapshot.wellFormed_empty
  have hwell : buffer.current.WellFormed := (replaceAll_wellFormed batches hempty).1
  obtain ⟨hchained, hlatest⟩ : commits.Chained ∧ commits.latest = buffer.current :=
    replaceAll_chained batches Commits.chained_nil rfl
  refine ⟨fun edits next change hreplace => ?_, hlatest, fun a b hab hb => ⟨?_, ?_, ?_, ?_⟩⟩
  · obtain ⟨happly, hnext⟩ := replace_eq_ok hreplace
    rw [hnext]
    exact hwell.framed happly
  · exact hchained.version_eq (hab.trans hb)
  · exact hchained.version_eq hb
  · intro line hline
    rw [(hchained.wellFormed hb).line?_eq, (hchained.wellFormed (hab.trans hb)).line?_eq]
    exact hchained.line_eq hab hb hline
  · intro k change hkb hk line hline
    exact hchained.lt_lineCount hk hkb hb hline

/-- Two lines are appended between an edit and a no-op of the lines there were. -/
theorem batches_frame_lines_around_appends :
    let batches : List (List Edit) := [[.insertLine 0 ['a', 'b'], .insertLine 1 ['c']]]
    let buffer := (empty.replaceAll batches).1
    let edits : List Edit :=
      [.insertLine 2 [], ⟨0, 1, 1, ['x']⟩, .insertLine 3 ['d'], ⟨1, 0, 0, []⟩]
    ∃ next change, buffer.replace edits = .ok (next, change) ∧
      buffer.current.Framed next.current (.ofList [0, 2, 3]) 2 := by
  intro batches buffer edits
  have hchanged : (buffer.replace edits).map (fun answer => changedLines answer.2) =
      .ok (.ofList [0, 2, 3]) := by decide +kernel
  have hcount : Edit.appendCount buffer.current.lineCount (Edit.byColumn edits) = 2 := by
    decide +kernel
  obtain ⟨hframed, -, -⟩ := batches_frame_lines batches
  cases hreplace : buffer.replace edits with
  | error error =>
    rw [hreplace] at hchanged
    cases hchanged
  | ok answer =>
    rw [hreplace] at hchanged
    refine ⟨answer.1, answer.2, rfl, ?_⟩
    rw [← Except.ok.inj hchanged, ← hcount]
    exact hframed edits answer.1 answer.2 hreplace

end TextBuffer

end LineTokens
