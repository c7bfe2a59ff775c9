import LineTokens.Proofs.Analysis.FirstChange
import LineTokens.Proofs.Buffer.Alone
import LineTokens.Proofs.Server.Runs
import LineTokens.Proofs.Text.Terminators

/-! Opening a text. It succeeds for every text and at every server, and the document it opens has
the lines of the text as its first version. Its analyzer is told of them in one notice, as every
observer of the buffer would be, and has taken them all up. -/

namespace LineTokens

/-! ### Notices counted -/

namespace Analyzer

variable {tokenizer : Tokenizer} {a b : Analyzer}

/-- The worker counts no notices. -/
theorem submitted_workerStep (h : a.workerStep tokenizer = some b) :
    b.submitted = a.submitted := by
  unfold workerStep at h
  split at h
  · split at h
    · cases h
    · cases h
      rfl
  · cases h
    rfl
  · split at h <;> cases h <;> rfl
  all_goals
    cases h
    rfl

theorem submitted_runFor (gate : Gate) (steps : Nat) (calls : List Call) :
    (a.runFor tokenizer gate steps calls).1.submitted = a.submitted := by
  induction steps generalizing a calls with
  | zero => rfl
  | succ steps ih =>
    unfold runFor
    split
    · rfl
    · rename_i b hstep
      have hsame := submitted_workerStep hstep
      split
      · exact (ih calls).trans hsame
      · split
        · exact (ih _).trans hsame
        · exact hsame

end Analyzer

theorem AnalyzedBuffer.submitted_accept (tokenizer : Tokenizer) (b : AnalyzedBuffer)
    (change : Change) :
    (b.accept tokenizer change).analyzer.submitted = b.analyzer.submitted + 1 := by
  unfold accept tell
  dsimp only
  split
  · rfl
  · exact Analyzer.submitted_runFor _ _ _

/-- The edits that load the lines of a text, made by one writer at a buffer without lines: each
observer is told once. -/
theorem Document.Loads.observed_eq {tokenizer : Tokenizer} {uri : String} {gate : Gate}
    {text : List Char} {d : Document} {change : Change} (h : Loads tokenizer uri gate text d change)
    {observerCount : Nat} (hobserved : 0 < observerCount) {t : Writers (List Delivery) Nat}
    (hreached : Writers.Reachable (recorders observerCount)
      (.start .empty [] [[Edit.insertLines 0 (Text.splitLines text)]]) t)
    (hdone : t.isDone = true) :
    t.observed = TextBuffer.deliveries ⟨t.cell.snapshot, observerCount⟩ change := by
  let buffer : TextBuffer := ⟨.empty, observerCount⟩
  have hobserved : 0 < buffer.observerCount := hobserved
  obtain ⟨-, hrecord⟩ := Writers.replaceAll_alone hobserved hreached hdone
  rw [hrecord, TextBuffer.replaceAll, TextBuffer.replace, h.apply_eq]
  exact List.flatMap_singleton ..

namespace Server

/-- Any text, opened at any server. The text has one line more than terminators: every line feed and
every carriage return ends a line, the two of a pair together. No line has a line break, the lines
with the terminators between them are the text, and joining and splitting keeps them. Opening the
text succeeds, and the document then has exactly these lines, as its first version and as the text
with a line feed for each terminator. They come in by one change, which names all of them. The
analyzer of the document has been told once, and has taken up that change; and however many
observers a buffer has, the call that loads the lines tells each of them once, of that change. -/
theorem didOpen_loses_nothing (s : Server) (uri : String) (text : List Char) :
    let lines := Text.splitLines text
    let ends := Text.terminators text
    (lines.length = ends.length + 1 ∧
      lines.length + Text.pairCount text = text.count '\r' + text.count '\n' + 1 ∧
      (∀ line ∈ lines, '\n' ∉ line ∧ '\r' ∉ line) ∧ Text.rejoin lines ends = text ∧
      Text.splitLines (Text.joinLines lines) = lines) ∧
    ∃ d change, (s.didOpen uri text).2 = .ok d ∧
      (s.didOpen uri text).1.documents.get? uri = some d ∧
      d.snapshot.lines = lines ∧ d.snapshot.lineCount = lines.length ∧ d.snapshot.version = 1 ∧
      d.snapshot.text = Text.rejoin lines (ends.map fun _ => .lineFeed) ∧
      (Document.create uri s.gate).replace s.tokenizer (Edit.insertLines 0 lines) =
        .ok (d, some change) ∧
      change.snapshot = d.snapshot ∧ change.changedLines.lines = List.range lines.length ∧
      d.content.analyzer.submitted = 1 ∧ d.content.analyzer.TookUp change s.gate ∧
      ∀ observerCount > 0, ∀ t, Writers.Reachable (recorders observerCount)
          (.start .empty [] [[Edit.insertLines 0 lines]]) t → t.isDone = true →
        t.observed = (List.range observerCount).map (⟨·, change⟩) := by
  intro lines ends
  have hunbroken : ∀ line ∈ lines, Text.hasBreak line = false :=
    fun line hline => Text.hasBreak_of_mem_splitLines hline
  refine ⟨⟨Text.length_splitLines text, Text.length_splitLines_add_pairCount text,
    fun line hline => Text.hasBreak_eq_false_iff.mp (hunbroken line hline),
    Text.rejoin_splitLines text,
    Text.splitLines_joinLines (Text.splitLines_ne_nil text) hunbroken⟩, ?_⟩
  obtain ⟨d, change, hloads⟩ := Document.replace_create s.tokenizer uri s.gate text
  have hopens : s.Opens uri text d := opens_of_loads hloads
  have htext : d.snapshot.text = Text.joinLines lines := hloads.represents.text_eq
  have hlines : change.changedLines.lines = List.range lines.length :=
    LineSet.lines_eq_of_mem_iff (t := ⟨_, List.pairwise_lt_range⟩) fun line =>
      (hloads.mem_changed_iff line).trans List.mem_range.symm
  refine ⟨d, change, hopens.outcome, hopens.found, hopens.lines_eq, hloads.represents.lineCount_eq,
    hloads.version_eq, htext.trans (Text.joinLines_splitLines text), hloads.replace_eq,
    hloads.snapshot_eq, hlines, ?_, ?_, fun observerCount hobserved t hreached hdone =>
      hloads.observed_eq hobserved hreached hdone⟩
  · rw [hloads.content_eq, AnalyzedBuffer.submitted_accept]
    rfl
  · rw [hloads.content_eq]
    refine AnalyzedBuffer.tookUp_accept s.tokenizer s.gate ?_ fun line hline => ?_
    · rw [hlines, Ne, List.range_eq_nil, List.length_eq_zero_iff]
      exact Text.splitLines_ne_nil text
    · rw [hloads.snapshot_eq, hloads.represents.wellFormed.isSome_line?_iff,
        hloads.represents.lineCount_eq]
      exact (hloads.mem_changed_iff line).mp hline

/-- A pair, a carriage return before a pair, and one at the end. -/
example : Text.splitLines "a\r\nb\r\r\n\r".toList = [['a'], ['b'], [], [], []] ∧
    Text.terminators "a\r\nb\r\r\n\r".toList =
      [.both, .carriageReturn, .both, .carriageReturn] := by
  decide

end Server

end LineTokens
