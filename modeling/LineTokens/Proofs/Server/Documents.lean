import LineTokens.Proofs.Analysis.Buffered
import LineTokens.Proofs.Buffer.Loading
import LineTokens.Server.Session

/-! The open documents of a server. Each command leaves a document as it is, has its buffer make
calls, or opens or closes it; so what holds of a buffer between calls holds of every open document,
after any commands. -/

namespace LineTokens

namespace Document

variable {tokenizer : Tokenizer} {uri : String} {d d' d'' : Document}

/-- An open document: it is kept under its own URI and has at least one line. -/
structure Stands (tokenizer : Tokenizer) (uri : String) (d : Document) : Prop where
  uri_eq : d.uri = uri
  loaded : 0 < d.snapshot.lineCount
  stands : ∃ commits, d.content.Stands tokenizer commits

/-- A document some calls later. -/
structure Later (tokenizer : Tokenizer) (d d' : Document) : Prop where
  uri_eq : d'.uri = d.uri
  content : d.content.Later tokenizer d'.content

theorem Later.refl (d : Document) : d.Later tokenizer d := ⟨rfl, .refl _⟩

theorem Later.trans (h : d.Later tokenizer d') (h' : d'.Later tokenizer d'') :
    d.Later tokenizer d'' :=
  ⟨h'.uri_eq.trans h.uri_eq, h.content.trans h'.content⟩

theorem Stands.later (h : d.Stands tokenizer uri) (hlater : d.Later tokenizer d') :
    d'.Stands tokenizer uri := by
  obtain ⟨commits, hstands⟩ := h.stands
  obtain ⟨commits', hstands', hrun⟩ := hlater.content commits hstands
  refine ⟨hlater.uri_eq.trans h.uri_eq, ?_, commits', hstands'⟩
  exact Nat.lt_of_lt_of_le h.loaded (hstands.lineCount_le hstands' hrun)

/-- The text of an open document splits into its lines. -/
theorem Stands.splitLines_text (h : d.Stands tokenizer uri) :
    Text.splitLines d.snapshot.text = d.snapshot.lines := by
  obtain ⟨commits, hstands⟩ := h.stands
  have hwell : d.snapshot.WellFormed := hstands.wellFormed
  have hloaded := h.loaded
  rw [← hwell.length_lines] at hloaded
  have htext : d.snapshot.text = Text.joinLines d.snapshot.lines := hwell.text_eq
  rw [htext]
  exact Text.splitLines_joinLines (List.length_pos_iff.mp hloaded) hwell.unbroken

/-- An idle document has published the tokens of all its lines. -/
theorem Stands.tokenizes (h : d.Stands tokenizer uri) (hidle : d.content.analyzer.isIdle = true) :
    d.result.table.Tokenizes tokenizer d.snapshot.lines := by
  obtain ⟨commits, hstands⟩ := h.stands
  exact hstands.tokenizes hidle

theorem Stands.idle (h : d.Stands tokenizer uri) (hgate : d.content.gate = .opened) :
    d.content.analyzer.isIdle = true := by
  obtain ⟨commits, hstands⟩ := h.stands
  exact hstands.idle hgate

theorem later_replace {edits : List Edit} {change : Option Change}
    (h : d.replace tokenizer edits = .ok (d', change)) : d.Later tokenizer d' := by
  unfold replace at h
  split at h
  · cases h
  · rename_i content outcome hcontent
    cases h
    exact ⟨rfl, AnalyzedBuffer.later_replace hcontent⟩

theorem later_takePatch (d : Document) : d.Later tokenizer d.takePatch.1 :=
  ⟨rfl, d.content.later_takePatch⟩

/-- What loading a text into a new document does: it commits one change, which makes the text's
lines the lines of the document and names all of them. -/
structure Loads (tokenizer : Tokenizer) (uri : String) (gate : Gate) (text : List Char)
    (d : Document) (change : Change) : Prop where
  apply_eq : Snapshot.empty.apply (Edit.insertLines 0 (Text.splitLines text)) = .ok (some change)
  replace_eq : (create uri gate).replace tokenizer (Edit.insertLines 0 (Text.splitLines text)) =
    .ok (d, some change)
  content_eq : d.content = (AnalyzedBuffer.start gate).accept tokenizer change
  stands : d.Stands tokenizer uri
  represents : d.snapshot.Represents (Text.splitLines text)
  version_eq : d.snapshot.version = 1
  snapshot_eq : change.snapshot = d.snapshot
  mem_changed_iff : ∀ line, line ∈ change.changedLines ↔ line < (Text.splitLines text).length

theorem Loads.gate_eq {gate : Gate} {text : List Char} {change : Change}
    (h : Loads tokenizer uri gate text d change) : d.content.gate = gate := by
  rw [h.content_eq]
  exact (AnalyzedBuffer.accept_eq tokenizer (.start gate) change).2

/-- Loading a text into a document without lines succeeds. -/
theorem replace_create (tokenizer : Tokenizer) (uri : String) (gate : Gate) (text : List Char) :
    ∃ d change, Loads tokenizer uri gate text d change := by
  obtain ⟨change, happly, hrepresents, hversion, hchanged⟩ :=
    Snapshot.apply_insertLines (Text.splitLines_ne_nil text)
      fun _ hline => Text.hasBreak_of_mem_splitLines hline
  have happly' : (AnalyzedBuffer.start gate).buffer.current.apply
      (Edit.insertLines 0 (Text.splitLines text)) = .ok (some change) := happly
  obtain ⟨hstands, -⟩ := (AnalyzedBuffer.stands_start tokenizer gate).accept happly'
  obtain ⟨hcurrent, -⟩ := AnalyzedBuffer.accept_eq tokenizer (.start gate) change
  refine ⟨⟨uri, (AnalyzedBuffer.start gate).accept tokenizer change⟩, change, happly, ?_, rfl,
    ⟨rfl, ?_, _, hstands⟩, ?_, ?_, hcurrent.symm, hchanged⟩
  · rw [replace, create, AnalyzedBuffer.replace_of_change happly']
  · rw [snapshot, hcurrent, hrepresents.lineCount_eq]
    exact List.length_pos_iff.mpr (Text.splitLines_ne_nil text)
  · rw [snapshot, hcurrent]
    exact hrepresents
  · rw [snapshot, hcurrent]
    exact hversion

end Document

end LineTokens
