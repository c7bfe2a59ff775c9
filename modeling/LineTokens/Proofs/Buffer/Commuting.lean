import LineTokens.Proofs.Buffer.Framing

/-! Batches on lines that exist and that no other batch addresses. What such a batch comes to is
decided by its own lines and the number of lines, and it leaves all others as they are; so two of
them come to the same in either order, and lead to the same snapshot. -/

namespace LineTokens

namespace Edit

/-- The edits address lines that exist among `count` lines. -/
def Within (count : Nat) (edits : List Edit) : Prop := ∀ edit ∈ edits, edit.line < count

instance (count : Nat) (edits : List Edit) : Decidable (Within count edits) :=
  inferInstanceAs (Decidable (∀ edit ∈ edits, edit.line < count))

/-- No line is addressed by both batches. -/
def LineDisjoint (edits others : List Edit) : Prop :=
  ∀ edit ∈ edits, ∀ other ∈ others, edit.line ≠ other.line

instance (edits others : List Edit) : Decidable (LineDisjoint edits others) :=
  inferInstanceAs (Decidable (∀ edit ∈ edits, ∀ other ∈ others, edit.line ≠ other.line))

theorem LineDisjoint.symm {edits others : List Edit} (h : LineDisjoint edits others) :
    LineDisjoint others edits :=
  fun other hother edit hedit => (h edit hedit other hother).symm

theorem Within.appendCount_eq {count : Nat} {edits : List Edit} (h : Within count edits) :
    appendCount count edits = 0 := by
  induction edits with
  | nil => rfl
  | cons edit rest ih =>
    have hne : edit.line ≠ count := Nat.ne_of_lt (h edit List.mem_cons_self)
    rw [appendCount, if_neg hne]
    exact ih fun other hother => h other (List.mem_cons_of_mem _ hother)

end Edit

/-! ### Lists of lines that are the same in part -/

/-- As many lines, and the same ones where `on` holds. -/
structure SameOn (on : Nat → Prop) (lines others : List (List Char)) : Prop where
  length_eq : lines.length = others.length
  same : ∀ line, on line → lines[line]? = others[line]?

namespace SameOn

variable {on on' : Nat → Prop} {lines others : List (List Char)}

theorem mono (h : SameOn on lines others) (hsub : ∀ line, on' line → on line) :
    SameOn on' lines others :=
  ⟨h.length_eq, fun line hon => h.same line (hsub line hon)⟩

theorem set (h : SameOn on lines others) (line : Nat) (text : List Char) :
    SameOn on (lines.set line text) (others.set line text) := by
  refine ⟨by rw [List.length_set, List.length_set, h.length_eq], fun other hon => ?_⟩
  rw [List.getElem?_set, List.getElem?_set, h.length_eq, h.same other hon]

end SameOn

namespace LineList

/-- A batch on two lists: refused for the same reason, or done with the same lines changed. -/
inductive Alike (on : Nat → Prop) :
    Except EditError LineList → Except EditError LineList → Prop
  | refused (error : EditError) : Alike on (.error error) (.error error)
  | done {list other : LineList} (same : SameOn on list.lines other.lines)
      (changed_eq : list.changed = other.changed) : Alike on (.ok list) (.ok other)

variable {on : Nat → Prop} {list other : LineList}

theorem step_alike (h : SameOn on list.lines other.lines) (hchanged : list.changed = other.changed)
    {edit : Edit} (hon : on edit.line) (hlt : edit.line < list.lines.length) :
    Alike on (list.step edit) (other.step edit) := by
  have hget : list.lines[edit.line]? = some list.lines[edit.line] := List.getElem?_eq_getElem hlt
  have hget' := (h.same _ hon).symm.trans hget
  unfold step
  simp only [hget, hget']
  split
  · exact .refused _
  · split
    · split
      · exact .done h hchanged
      · exact .done (h.set _ _) (by rw [hchanged])
    · exact .refused _

/-- A step on a line that exists leaves as many lines. -/
theorem length_step_of_lt {next : LineList} {edit : Edit} (h : list.step edit = .ok next)
    (hlt : edit.line < list.lines.length) : next.lines.length = list.lines.length := by
  rw [length_lines_step h, if_neg (Nat.ne_of_lt hlt)]

theorem run_alike (h : SameOn on list.lines other.lines) (hchanged : list.changed = other.changed)
    {edits : List Edit} (hon : ∀ edit ∈ edits, on edit.line)
    (hwithin : Edit.Within list.lines.length edits) :
    Alike on (list.run edits) (other.run edits) := by
  induction edits generalizing list other with
  | nil => exact .done h hchanged
  | cons edit rest ih =>
    have hlt := hwithin edit List.mem_cons_self
    have hstep := step_alike h hchanged (hon edit List.mem_cons_self) hlt
    rw [run, run]
    cases hnext : list.step edit with
    | error error =>
      rw [hnext] at hstep
      generalize other.step edit = outcome at hstep
      cases hstep
      exact .refused error
    | ok next =>
      rw [hnext] at hstep
      generalize other.step edit = outcome at hstep
      cases hstep with
      | done hsame hchanged =>
        have hlength := length_step_of_lt hnext hlt
        refine ih hsame hchanged (fun edit hedit => hon edit (List.mem_cons_of_mem _ hedit)) ?_
        intro edit hedit
        rw [hlength]
        exact hwithin edit (List.mem_cons_of_mem _ hedit)

/-- The lines after a batch, which are the same if it is refused. -/
def after (lines : List (List Char)) (edits : List Edit) : List (List Char) :=
  match edit lines edits with
  | .error _ => lines
  | .ok list => list.lines

variable {lines others : List (List Char)} {edits : List Edit}

theorem edit_alike (h : SameOn on lines others) (hon : ∀ edit ∈ edits, on edit.line)
    (hwithin : Edit.Within lines.length edits) :
    Alike on (edit lines edits) (edit others edits) := by
  have hon' : ∀ edit ∈ Edit.byColumn edits, on edit.line :=
    fun edit hedit => hon edit (Edit.mem_byColumn.mp hedit)
  have hwithin' : Edit.Within lines.length (Edit.byColumn edits) :=
    fun edit hedit => hwithin edit (Edit.mem_byColumn.mp hedit)
  have hchanged : (LineList.mk lines .empty).changed = (LineList.mk others .empty).changed := rfl
  exact run_alike h hchanged hon' hwithin'

theorem after_sameOn (h : SameOn on lines others) (hon : ∀ edit ∈ edits, on edit.line)
    (hwithin : Edit.Within lines.length edits) :
    SameOn on (after lines edits) (after others edits) := by
  have halike := edit_alike h hon hwithin
  unfold after
  generalize edit lines edits = outcome at halike ⊢
  generalize edit others edits = outcome' at halike ⊢
  cases halike with
  | refused error => exact h
  | done same changed_eq => exact same

/-- The lines that a batch does not address. -/
theorem after_untouched (hwithin : Edit.Within lines.length edits) :
    SameOn (fun line => ∀ edit ∈ edits, edit.line ≠ line) (after lines edits) lines := by
  unfold after
  split
  · exact ⟨rfl, fun _ _ => rfl⟩
  · rename_i list hedit
    have hlength : list.lines.length = lines.length := by
      have hcount : Edit.Within lines.length (Edit.byColumn edits) :=
        fun edit hmem => hwithin edit (Edit.mem_byColumn.mp hmem)
      rw [length_lines_run hedit]
      exact congrArg _ hcount.appendCount_eq
    refine ⟨hlength, fun line huntouched => (run_frame hedit).2.same line fun hchanged => ?_⟩
    rcases (mem_changed_edit hedit line).mp hchanged with ⟨edit, hmem, rfl, -⟩ | ⟨hle, hlt⟩
    · exact huntouched edit hmem rfl
    · omega

/-- On the lines of the one batch nothing is changed by the other. -/
theorem after_of_disjoint {edits others : List Edit} (hwithin : Edit.Within lines.length others)
    (hdisjoint : Edit.LineDisjoint edits others) :
    SameOn (fun line => ∃ edit ∈ edits, edit.line = line) (after lines others) lines := by
  refine (after_untouched hwithin).mono ?_
  rintro line ⟨edit, hedit, rfl⟩ other hother
  exact (hdisjoint edit hedit other hother).symm

theorem after_comm {edits others : List Edit} (hedits : Edit.Within lines.length edits)
    (hothers : Edit.Within lines.length others) (hdisjoint : Edit.LineDisjoint edits others) :
    after (after lines edits) others = after (after lines others) edits := by
  have hkept := after_untouched hedits
  have hkept' := after_untouched hothers
  have hothers' : Edit.Within (after lines edits).length others := by rwa [hkept.length_eq]
  have hedits' : Edit.Within (after lines others).length edits := by rwa [hkept'.length_eq]
  have hlast := after_untouched hothers'
  have hlast' := after_untouched hedits'
  -- Each batch finds its own lines as they were at first.
  have hown := after_sameOn (after_of_disjoint hothers hdisjoint)
    (fun edit hedit => ⟨edit, hedit, rfl⟩) hedits'
  have hown' := after_sameOn (after_of_disjoint hedits hdisjoint.symm)
    (fun edit hedit => ⟨edit, hedit, rfl⟩) hothers'
  refine List.ext_getElem? fun line => ?_
  by_cases hedit : ∃ edit ∈ edits, edit.line = line
  · have huntouched : ∀ other ∈ others, other.line ≠ line := by
      obtain ⟨edit, hmem, rfl⟩ := hedit
      exact fun other hother => (hdisjoint edit hmem other hother).symm
    rw [hlast.same line huntouched, hown.same line hedit]
  · have huntouched : ∀ edit ∈ edits, edit.line ≠ line :=
      fun edit hmem heq => hedit ⟨edit, hmem, heq⟩
    rw [hlast'.same line huntouched]
    by_cases hother : ∃ other ∈ others, other.line = line
    · exact hown'.same line hother
    · have huntouched' : ∀ other ∈ others, other.line ≠ line :=
        fun other hmem heq => hother ⟨other, hmem, heq⟩
      rw [hlast.same line huntouched', hkept.same line huntouched, hkept'.same line huntouched']

end LineList

/-! ### Snapshots -/

namespace Snapshot

/-- What a call returns for a batch: an error, no change, or the lines changed. -/
def outcome (s : Snapshot) (edits : List Edit) : Except EditError (Option LineSet) :=
  (s.apply edits).map (Option.map Change.changedLines)

/-- The snapshot after a batch, which is the same if it is refused or changes nothing. -/
def after (s : Snapshot) (edits : List Edit) : Snapshot :=
  match s.apply edits with
  | .ok (some change) => change.snapshot
  | _ => s

theorem after_of_change {s : Snapshot} {edits : List Edit} {change : Change}
    (h : s.apply edits = .ok (some change)) : s.after edits = change.snapshot := by
  rw [after, h]

theorem after_of_unchanged {s : Snapshot} {edits : List Edit}
    (h : ∀ changed, s.outcome edits ≠ .ok (some changed)) : s.after edits = s := by
  unfold after
  split
  · rename_i change happly
    refine absurd ?_ (h change.changedLines)
    rw [outcome, happly]
    rfl
  · rfl

/-- A batch that changes something makes one more version. -/
theorem version_after (s : Snapshot) (edits : List Edit) :
    (s.after edits).version =
      match s.outcome edits with
      | .ok (some _) => s.version + 1
      | _ => s.version := by
  unfold after outcome
  cases happly : s.apply edits with
  | error error => rfl
  | ok result =>
    cases result with
    | none => rfl
    | some change => exact (apply_eq_some happly).1

namespace Represents

variable {s : Snapshot} {lines : List (List Char)}

theorem outcome_eq (h : s.Represents lines) (edits : List Edit) :
    s.outcome edits = (LineList.edit lines edits).map fun list =>
      if list.changed.isEmpty then none else some list.changed := by
  rw [outcome]
  cases hedit : LineList.edit lines edits with
  | error error =>
    rw [h.apply_eq_error_iff.mpr hedit]
    rfl
  | ok list =>
    rw [h.apply_eq_ok_iff.mpr ⟨list, hedit, rfl⟩, LineList.change?]
    simp only [Except.map]
    split <;> rfl

theorem after_lines (h : s.Represents lines) (edits : List Edit) :
    (s.after edits).Represents (LineList.after lines edits) := by
  unfold LineList.after
  split
  · rename_i error hedit
    rw [Snapshot.after, h.apply_eq_error_iff.mpr hedit]
    exact h
  · rename_i list hedit
    have hlines := Represents.after h hedit
    rw [Snapshot.after, h.apply_eq_ok_iff.mpr ⟨list, hedit, rfl⟩]
    generalize list.change? (s.version + 1) = change at hlines ⊢
    cases change with
    | none => exact hlines
    | some change => exact hlines

/-- A batch comes to the same where its own lines are the same. -/
theorem outcome_congr {t : Snapshot} {others : List (List Char)} (h : s.Represents lines)
    (ht : t.Represents others) {edits : List Edit}
    (hsame : SameOn (fun line => ∃ edit ∈ edits, edit.line = line) lines others)
    (hwithin : Edit.Within lines.length edits) : s.outcome edits = t.outcome edits := by
  have halike := LineList.edit_alike hsame (fun edit hedit => ⟨edit, hedit, rfl⟩) hwithin
  rw [h.outcome_eq, ht.outcome_eq]
  generalize LineList.edit lines edits = result at halike ⊢
  generalize LineList.edit others edits = result' at halike ⊢
  cases halike with
  | refused error => rfl
  | done same changed_eq => simp only [Except.map, changed_eq]

end Represents

/-- The snapshot stands for `count` lines. -/
structure Sized (count : Nat) (s : Snapshot) : Prop where
  wellFormed : s.WellFormed
  lineCount_eq : s.lineCount = count

namespace Sized

variable {s : Snapshot} {count : Nat} {edits others : List Edit}

theorem length_lines (h : s.Sized count) : s.lines.length = count :=
  h.wellFormed.length_lines.trans h.lineCount_eq

theorem after (h : s.Sized count) (hwithin : Edit.Within count edits) :
    (s.after edits).Sized count := by
  have hlines := Represents.after_lines h.wellFormed edits
  refine ⟨hlines.wellFormed, ?_⟩
  rw [← h.length_lines] at hwithin
  rw [hlines.lineCount_eq, (LineList.after_untouched hwithin).length_eq, h.length_lines]

theorem outcome_after (h : s.Sized count) (hedits : Edit.Within count edits)
    (hothers : Edit.Within count others) (hdisjoint : Edit.LineDisjoint edits others) :
    (s.after others).outcome edits = s.outcome edits := by
  have hlines := Represents.after_lines h.wellFormed others
  rw [← h.length_lines] at hedits hothers
  have hsame := LineList.after_of_disjoint hothers hdisjoint
  refine hlines.outcome_congr h.wellFormed hsame ?_
  rwa [hsame.length_eq]

theorem after_comm (h : s.Sized count) (hedits : Edit.Within count edits)
    (hothers : Edit.Within count others) (hdisjoint : Edit.LineDisjoint edits others) :
    (s.after edits).after others = (s.after others).after edits := by
  have hlines := Represents.after_lines (Represents.after_lines h.wellFormed edits) others
  have hlines' := Represents.after_lines (Represents.after_lines h.wellFormed others) edits
  have hversion :
      ((s.after edits).after others).version = ((s.after others).after edits).version := by
    rw [version_after (s.after edits), version_after (s.after others),
      h.outcome_after hedits hothers hdisjoint, h.outcome_after hothers hedits hdisjoint.symm,
      version_after, version_after]
    split <;> split <;> rfl
  rw [hlines.eq_ofLines, hlines'.eq_ofLines, hversion]
  rw [← h.length_lines] at hedits hothers
  rw [LineList.after_comm hedits hothers hdisjoint]

end Sized

end Snapshot

end LineTokens
