import LineTokens.Proofs.Buffer.Columns
import LineTokens.Proofs.Server.Erasure

/-! An insertion and a replacement that start in the same column and are notified together. Edits of
one column are worked off in the order in which they are given, so the replacement removes what it
was meant to remove if it is given first. Given second, it finds the inserted text in its column and
removes from this. -/

namespace LineTokens

/-- Of two edits, the second of which is in no later column, the first one is worked off first. -/
theorem Edit.byColumn_pair {first second : Edit} (h : second.column ≤ first.column) :
    byColumn [first, second] = [first, second] :=
  if_pos h

/-- An edit at the end of a part of a line leaves this part as it is. -/
theorem LineList.spliceLine_append {edit : Edit} {before : List Char}
    (h : before.length = edit.column) (after : List Char) :
    spliceLine (before ++ after) edit =
      before ++ edit.inserted ++ after.drop edit.deleteLength := by
  rw [spliceLine, Edit.stop, ← h, List.take_left, List.drop_length_add_append]

/-- Two edits of a line, the second of which fits the line with the first one done. -/
theorem LineList.edit_pair {lines : List (List Char)} {line : List Char} (first second : Edit)
    (hcolumn : second.column ≤ first.column) (hsame : second.line = first.line)
    (hline : lines[first.line]? = some line) (hunbroken : Text.hasBreak first.inserted = false)
    (hunbroken' : Text.hasBreak second.inserted = false) (hfirst : first.stop ≤ line.length)
    (hsecond : second.stop ≤ (spliceLine line first).length) :
    ∃ list, edit lines [first, second] = .ok list ∧
      list.lines = lines.set first.line (spliceLine (spliceLine line first) second) := by
  have hlt : first.line < lines.length := (List.getElem?_eq_some_iff.mp hline).1
  obtain ⟨middle, hstep, hmiddle⟩ : ∃ middle, step ⟨lines, .empty⟩ first = .ok middle ∧
      middle.lines = lines.set first.line (spliceLine line first) :=
    step_of_le hunbroken hline hfirst
  have hline' : middle.lines[second.line]? = some (spliceLine line first) := by
    rw [hmiddle, hsame, List.getElem?_set_self hlt]
  obtain ⟨last, hstep', hlast⟩ := step_of_le hunbroken' hline' hsecond
  refine ⟨last, ?_, ?_⟩
  · rw [edit, Edit.byColumn_pair hcolumn, run, hstep]
    show middle.run [second] = .ok last
    rw [run, hstep']
    rfl
  · rw [hlast, hmiddle, hsame, List.set_set]

/-- A text put in where a range that is replaced starts. -/
theorem LineList.edit_meeting {lines : List (List Char)} {kept rest x y : List Char}
    {number column removed : Nat} (hline : lines[number]? = some (kept ++ rest))
    (hcolumn : kept.length = column) (hremoved : removed ≤ rest.length)
    (hx : Text.hasBreak x = false) (hy : Text.hasBreak y = false) :
    (∃ list, edit lines [⟨number, column, removed, y⟩, ⟨number, column, 0, x⟩] = .ok list ∧
      list.lines = lines.set number (kept ++ x ++ y ++ rest.drop removed)) ∧
    ∃ list, edit lines [⟨number, column, 0, x⟩, ⟨number, column, removed, y⟩] = .ok list ∧
      list.lines = lines.set number (kept ++ y ++ (x ++ rest).drop removed) := by
  have hreplaced : ∀ after, spliceLine (kept ++ after) ⟨number, column, removed, y⟩ =
      kept ++ y ++ after.drop removed := spliceLine_append hcolumn
  have hinserted : ∀ after, spliceLine (kept ++ after) ⟨number, column, 0, x⟩ =
      kept ++ x ++ after := spliceLine_append hcolumn
  constructor
  · obtain ⟨list, hedit, hlines⟩ := edit_pair ⟨number, column, removed, y⟩
      ⟨number, column, 0, x⟩ (Nat.le_refl _) rfl hline hy hx
      (by simp only [Edit.stop, List.length_append]; omega)
      (by simp only [Edit.stop, hreplaced, List.length_append]; omega)
    refine ⟨list, hedit, ?_⟩
    rw [hlines, hreplaced, List.append_assoc, hinserted, ← List.append_assoc]
  · obtain ⟨list, hedit, hlines⟩ := edit_pair ⟨number, column, 0, x⟩
      ⟨number, column, removed, y⟩ (Nat.le_refl _) rfl hline hx hy
      (by simp only [Edit.stop, List.length_append]; omega)
      (by simp only [Edit.stop, hinserted, List.length_append]; omega)
    refine ⟨list, hedit, ?_⟩
    rw [hlines, hinserted, List.append_assoc, hreplaced]

/-- A change of one line whose range does not end before it starts. -/
theorem ContentChange.edit_of_le (number : UInt32) {first last : UInt32}
    (h : first.toNat ≤ last.toNat) (text : String) :
    edit ⟨⟨⟨number, first⟩, ⟨number, last⟩⟩, text⟩ =
      .ok ⟨number.toNat, first.toNat, last.toNat - first.toNat, text.toList⟩ := by
  have hnot : ¬last < first := by
    rw [UInt32.lt_iff_toNat_lt]
    omega
  simp [edit, hnot]

/-- A document whose lines a batch can be done on has the edited lines afterwards. -/
theorem Document.replace_of_edit {d : Document} (tokenizer : Tokenizer)
    (hwell : d.snapshot.WellFormed) {edits : List Edit} {list : LineList}
    (hedit : LineList.edit d.snapshot.lines edits = .ok list) :
    ∃ d' change, d.replace tokenizer edits = .ok (d', change) ∧ d'.snapshot.lines = list.lines := by
  have happly := (Snapshot.Represents.apply_eq_ok_iff hwell).mpr ⟨list, hedit, rfl⟩
  have hafter := Snapshot.Represents.after hwell hedit
  cases hchange : list.change? (d.snapshot.version + 1) with
  | none =>
    rw [hchange] at happly hafter
    exact ⟨d, none, replace_of_noChange happly, hafter.lines_eq⟩
  | some change =>
    rw [hchange] at happly hafter
    refine ⟨⟨d.uri, d.content.accept tokenizer change⟩, some change, ?_, ?_⟩
    · rw [replace, AnalyzedBuffer.replace_of_change happly]
    · rw [snapshot, (AnalyzedBuffer.accept_eq tokenizer d.content change).1]
      exact hafter.lines_eq

namespace Server

variable {tokenizer : Tokenizer} {options : ServerOptions} {s : Server} {uri : String}
  {d : Document}

/-- Changes whose edits can be done on the lines of an open document are accepted. -/
theorem didChange_of_edit (hs : s.Sound) (hopen : s.documents.get? uri = some d)
    {changes : List ContentChange} {edits : List Edit} {list : LineList}
    (hedits : ContentChange.edits changes = .ok edits)
    (hedit : LineList.edit d.snapshot.lines edits = .ok list) :
    ∃ d', (s.didChange uri changes).2 = .ok d' ∧
      (s.didChange uri changes).1.documents.get? uri = some d' ∧
      d'.snapshot.lines = list.lines := by
  obtain ⟨commits, hstands⟩ := (hs uri d hopen).stands
  obtain ⟨d', change, hreplace, hlines⟩ :=
    Document.replace_of_edit s.tokenizer hstands.wellFormed hedit
  have hkey : d'.uri = uri :=
    (Document.later_replace hreplace).uri_eq.trans (hs uri d hopen).uri_eq
  have hchange : s.didChange uri changes = (s.put d', .ok d') := by
    simp only [didChange, document_eq_ok_iff.mpr hopen, hedits, hreplace]
  refine ⟨d', by rw [hchange], ?_, hlines⟩
  rw [hchange, get?_put, if_pos hkey.symm]

/-- A text put in at the start of a range that is replaced in the same notification. If the
replacement comes first among the changes, it removes the range and both texts are kept. If it comes
second, it removes as many characters from the inserted text and what stands after it, and the rest
of the range stays. -/
theorem insertion_meets_replacement (number first last : UInt32) (x y : String)
    {text : List Char} (hran : Runs (fun _ => True) (start tokenizer options) s)
    (hopen : s.documents.get? uri = some d)
    (hline : d.snapshot.lines[number.toNat]? = some text) (hfirst : first < last)
    (hlast : last.toNat ≤ text.length) (hx : Text.hasBreak x.toList = false)
    (hy : Text.hasBreak y.toList = false) :
    let insertion : ContentChange := ⟨⟨⟨number, first⟩, ⟨number, first⟩⟩, x⟩
    let replacement : ContentChange := ⟨⟨⟨number, first⟩, ⟨number, last⟩⟩, y⟩
    let kept := text.take first.toNat
    let rest := text.drop first.toNat
    let removed := last.toNat - first.toNat
    (∃ d', (s.didChange uri [replacement, insertion]).2 = .ok d' ∧
      (s.didChange uri [replacement, insertion]).1.documents.get? uri = some d' ∧
      d'.snapshot.lines = d.snapshot.lines.set number.toNat
        (kept ++ x.toList ++ y.toList ++ rest.drop removed)) ∧
    ∃ d', (s.didChange uri [insertion, replacement]).2 = .ok d' ∧
      (s.didChange uri [insertion, replacement]).1.documents.get? uri = some d' ∧
      d'.snapshot.lines = d.snapshot.lines.set number.toNat
        (kept ++ y.toList ++ (x.toList ++ rest).drop removed) := by
  intro insertion replacement kept rest removed
  obtain ⟨hsound, -, -⟩ := hran.sound (sound_start tokenizer options)
  have hlt : first.toNat < last.toNat := UInt32.lt_iff_toNat_lt.mp hfirst
  have hkept : kept.length = first.toNat := List.length_take_of_le (by omega)
  have hremoved : removed ≤ rest.length := by
    rw [List.length_drop]
    omega
  rw [← List.take_append_drop first.toNat text] at hline
  obtain ⟨⟨before, hbefore, hright⟩, after, hafter, hwrong⟩ :=
    LineList.edit_meeting hline hkept hremoved hx hy
  have hinsertion := ContentChange.edit_of_le number (Nat.le_refl first.toNat) x
  have hreplacement := ContentChange.edit_of_le number (Nat.le_of_lt hlt) y
  rw [Nat.sub_self] at hinsertion
  constructor
  · rw [← hright]
    refine didChange_of_edit hsound hopen ?_ hbefore
    simp only [ContentChange.edits, insertion, replacement, hinsertion, hreplacement, removed]
  · rw [← hwrong]
    refine didChange_of_edit hsound hopen ?_ hafter
    simp only [ContentChange.edits, insertion, replacement, hinsertion, hreplacement, removed]

/-- A text longer than the range that it meets. -/
theorem insertion_meets_replacement_of_one_character :
    let first := start .firstBang .default
    let s := (first.performAll [.didOpen "u" ['x', '\n', 'a', 'b', 'c', 'd']]).1
    let insertion : ContentChange := ⟨⟨⟨1, 1⟩, ⟨1, 1⟩⟩, "XY"⟩
    let replacement : ContentChange := ⟨⟨⟨1, 1⟩, ⟨1, 2⟩⟩, "Z"⟩
    (∃ d', (s.didChange "u" [replacement, insertion]).2 = .ok d' ∧
      d'.snapshot.lines = [['x'], ['a', 'X', 'Y', 'Z', 'c', 'd']]) ∧
    ∃ d', (s.didChange "u" [insertion, replacement]).2 = .ok d' ∧
      d'.snapshot.lines = [['x'], ['a', 'Z', 'Y', 'b', 'c', 'd']] := by
  intro first s insertion replacement
  have hran : Runs (fun _ => True) (start .firstBang .default) s :=
    Runs.start.performAll fun _ _ => trivial
  have hlines : (s.documents.get? "u").map (·.snapshot.lines) =
      some [['x'], ['a', 'b', 'c', 'd']] := by decide +kernel
  obtain ⟨d, hopen, hlines⟩ := Option.map_eq_some_iff.mp hlines
  obtain ⟨⟨before, hbefore, -, hright⟩, after, hafter, -, hwrong⟩ :=
    insertion_meets_replacement 1 1 2 "XY" "Z" hran hopen (by rw [hlines]; rfl) (by decide)
      (by decide) (by decide) (by decide)
  rw [hlines] at hright hwrong
  exact ⟨⟨before, hbefore, hright⟩, after, hafter, hwrong⟩

/-- The range of the second change held the 'b', and what it removes is the 'X' of the first. -/
theorem insertion_removed_by_replacement :
    let s := ((start .firstBang .default).performAll [.didOpen "u" ['a', 'b', 'c', 'd']]).1
    let changes : List ContentChange :=
      [⟨⟨⟨0, 1⟩, ⟨0, 1⟩⟩, "XY"⟩, ⟨⟨⟨0, 1⟩, ⟨0, 2⟩⟩, "Z"⟩]
    let after := ['a', 'Z', 'Y', 'b', 'c', 'd']
    ((s.didChange "u" changes).1.perform (.text "u")).2 = .text (some ⟨after, 1, 6, 2⟩) ∧
      after ≠ ['a', 'X', 'Y', 'Z', 'c', 'd'] ∧ after ≠ ['a', 'Z', 'X', 'Y', 'c', 'd'] := by
  decide +kernel

end Server

end LineTokens
