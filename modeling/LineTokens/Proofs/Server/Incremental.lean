import LineTokens.Proofs.Server.Runs

/-! Incremental analysis against analysis from scratch. Lines have only one table of their tokens,
and splitting the text of a document gives its lines back, so a server in which the text is opened
anew answers with the same data. -/

namespace LineTokens

namespace Server

variable {tokenizer : Tokenizer} {options : ServerOptions} {s t : Server} {uri : String}

/-- Two servers answer every request for tokens of a document, and with the same data. Where partial
answers break off, they do so in both. -/
structure SameData (uri : String) (s t : Server) : Prop where
  full : ∃ data, (s.tokensFull uri).map SemanticTokens.data = .ok data ∧
    (t.tokensFull uri).map SemanticTokens.data = .ok data
  range : ∀ range, ∃ data, (s.tokensRange uri range).map SemanticTokens.data = .ok data ∧
    (t.tokensRange uri range).map SemanticTokens.data = .ok data
  fullPartial : ∃ batches, s.tokensFullPartial uri = .ok batches ∧
    t.tokensFullPartial uri = .ok batches
  rangePartial : ∀ range, ∃ batches, s.tokensRangePartial uri range = .ok batches ∧
    t.tokensRangePartial uri range = .ok batches

/-- The data of answers depends on the published table and the options alone. -/
theorem SameData.of_table {d d' : Document} (hd : s.documents.get? uri = some d)
    (hd' : t.documents.get? uri = some d') (htable : d'.result.table = d.result.table)
    (hoptions : t.options = s.options) : SameData uri s t := by
  have hs := result_eq hd
  have ht := result_eq hd'
  refine ⟨?_, fun range => ?_, ?_, fun range => ?_⟩
  · simp only [tokensFull, hs, ht, Except.map, htable]
    exact ⟨_, rfl, rfl⟩
  · simp only [tokensRange, hs, ht, Except.map, htable]
    exact ⟨_, rfl, rfl⟩
  · simp only [tokensFullPartial, hs, ht, Except.map, htable, hoptions]
    exact ⟨_, rfl, rfl⟩
  · simp only [tokensRangePartial, hs, ht, Except.map, htable, hoptions]
    exact ⟨_, rfl, rfl⟩

/-- A document that is idle is answered for like its text opened in a new server: whatever commands
the server has been given before, the data of all answers is the same. -/
theorem incremental_eq_fresh {d : Document}
    (hran : Runs (fun _ => True) (start tokenizer options) s)
    (hopen : s.documents.get? uri = some d) (hidle : d.content.analyzer.isIdle = true) :
    let fresh := ((start tokenizer options).didOpen uri d.snapshot.text).1
    (∃ opened, fresh.documents.get? uri = some opened ∧
      opened.content.analyzer.isIdle = true) ∧ SameData uri s fresh := by
  obtain ⟨hsound, htokenizer, hoptions⟩ := hran.sound (sound_start tokenizer options)
  have hstands := hsound uri d hopen
  have htable := hstands.tokenizes hidle
  obtain ⟨opened, hopens⟩ := (start tokenizer options).didOpen_opens uri d.snapshot.text
  have hidle' := hopens.stands.idle hopens.gate_eq
  have htable' := hopens.stands.tokenizes hidle'
  rw [hopens.lines_eq, hstands.splitLines_text] at htable'
  rw [htokenizer] at htable
  refine ⟨⟨opened, hopens.found, hidle'⟩,
    .of_table hopen hopens.found (htable'.unique htable) ?_⟩
  rw [hopens.options_eq, hoptions]

theorem incremental_eq_fresh_after_superseded_pass :
    let s := ((start .firstBang .default).performAll [.didOpen "u" ['a', '!', '\n', 'b'], .hold,
      .didChange "u" [⟨⟨⟨1, 1⟩, ⟨1, 1⟩⟩, "!"⟩], .didChange "u" [⟨⟨⟨0, 0⟩, ⟨0, 1⟩⟩, ""⟩],
      .release]).1
    ∃ d, s.documents.get? "u" = some d ∧ d.content.analyzer.isIdle = true ∧
      d.snapshot.text = ['!', '\n', 'b', '!'] ∧
      SameData "u" s ((start .firstBang .default).didOpen "u" ['!', '\n', 'b', '!']).1 := by
  intro s
  have hran : Runs (fun _ => True) (start .firstBang .default) s :=
    Runs.start.performAll fun _ _ => trivial
  have hidle : (s.documents.get? "u").map (·.content.analyzer.isIdle) = some true := by
    decide +kernel
  have htext : (s.documents.get? "u").map (·.snapshot.text) = some ['!', '\n', 'b', '!'] := by
    decide +kernel
  obtain ⟨d, hd, hidle⟩ := Option.map_eq_some_iff.mp hidle
  rw [hd] at htext
  have htext : d.snapshot.text = ['!', '\n', 'b', '!'] := Option.some.inj htext
  obtain ⟨-, hsame⟩ := incremental_eq_fresh hran hd hidle
  rw [htext] at hsame
  exact ⟨d, hd, hidle, htext, hsame⟩

end Server

end LineTokens
