import LineTokens.Proofs.Encoding.Decode
import LineTokens.Proofs.Server.Runs

/-! Delta answers. If the client's id is that of the version before the pending patch, or that of
the published version, the edits it is sent lead its map of lines to the map of the published
table. -/

namespace LineTokens

/-- Different numbers have different decimals. -/
theorem decimal_inj {m n : Nat} (h : toString m = toString n) : m = n := by
  have hdigits : Nat.toDigits 10 m = Nat.toDigits 10 n := by
    simpa [Nat.toString_eq_repr] using congrArg String.toList h
  rw [← Nat.ofDigitChars_ten_toDigits (n := m), hdigits, Nat.ofDigitChars_ten_toDigits]

namespace Server

variable {tokenizer : Tokenizer} {options : ServerOptions} {s t : Server} {uri : String}

/-- An answer that expects no other version: the client is up to date, or it has the version before
the patch and gets all of it. -/
theorem deltaAnswer_cases {patch : Patch} {version : Nat}
    (h : (deltaAnswer patch (toString version)).expected = none) :
    patch.version = version ∧
        (deltaAnswer patch (toString version)).delta = ⟨toString patch.version, []⟩ ∨
      patch.isEmpty = false ∧ patch.version = version + 1 ∧
        (deltaAnswer patch (toString version)).delta = Encoding.encodePatch patch := by
  unfold deltaAnswer at h ⊢
  split
  · rename_i hsame
    exact .inl ⟨(decimal_inj hsame).symm, rfl⟩
  · rename_i hother
    rw [if_neg hother] at h
    dsimp only at h
    have hne : version ≠ patch.version := fun heq => hother (congrArg toString heq)
    have hbase : version = patchBase patch := by
      by_contra hbase
      rw [if_neg fun heq => hbase (decimal_inj heq)] at h
      cases h
    rw [patchBase] at hbase
    split at hbase
    · exact absurd hbase hne
    · rename_i hempty
      exact .inr ⟨by simpa using hempty, by omega, rfl⟩

/-- The patch that a delta request takes leads from a result published before to the one published
now, if it has any entries and applies to the former. -/
theorem takePatch_since {b : AnalyzedBuffer} {commits : Commits} {base : AnalysisResult}
    (hstands : b.Stands tokenizer commits) (hsince : (b.relay commits).Since base) :
    b.takePatch.2.version = b.analyzer.result.version ∧
      (b.takePatch.2.isEmpty = false → b.analyzer.result.version = base.version + 1 →
        b.takePatch.2.Leads base b.analyzer.result) := by
  rw [AnalyzedBuffer.takePatch_eq]
  dsimp only
  cases hpatch : b.analyzer.patch with
  | none => exact ⟨rfl, fun hempty => by cases hempty⟩
  | some patch =>
    obtain ⟨hversion, hleads⟩ := hsince.pending hstands.isPublishing_eq_false patch hpatch
    exact ⟨hversion, fun _ => hleads⟩

/-- A document that is neither opened nor closed meanwhile stays open, and its delta requests are
answered; an answer that expects no other version brings a client that has the map of an earlier
version up to date. -/
theorem delta_brings_up_to_date {first : Document}
    (hran : Runs (fun _ => True) (start tokenizer options) s)
    (hfirst : s.documents.get? uri = some first) (hkept : Runs (Command.Keeps uri) s t) :
    ∃ last answer, t.documents.get? uri = some last ∧
      (t.tokensDelta uri (toString first.result.version)).2 = .ok answer ∧
      (last.result.table.Fits → answer.expected = none →
        answer.delta.resultId = toString last.result.version ∧
          answer.delta.updateLines first.result.table.get? = last.result.table.get?) := by
  obtain ⟨hsound, -, -⟩ := hran.sound (sound_start tokenizer options)
  obtain ⟨last, hlast, hlater⟩ := (hkept.later hsound).after hfirst
  obtain ⟨commits, hstands⟩ := (hsound uri first hfirst).stands
  obtain ⟨commits', hstands', hrun⟩ := hlater.content commits hstands
  have hsince : (last.content.relay commits').Since first.result :=
    hstands.reached.since hrun
  obtain ⟨hversion, hleads⟩ := takePatch_since hstands' hsince
  have hanswer : (t.tokensDelta uri (toString first.result.version)).2 =
      .ok (deltaAnswer last.content.takePatch.2 (toString first.result.version)) := by
    rw [tokensDelta, document_eq_ok_iff.mpr hlast]
    rfl
  refine ⟨last, _, hlast, hanswer, fun hfits hexpected => ?_⟩
  rcases deltaAnswer_cases hexpected with ⟨hsame, hdelta⟩ | ⟨hnonempty, hnext, hdelta⟩
  · have hresult : last.result = first.result := hsince.result_eq (hversion.symm.trans hsame)
    rw [hdelta, hresult]
    exact ⟨congrArg toString hsame, rfl⟩
  · rw [hdelta]
    have hpatch := hleads hnonempty (hversion.symm.trans hnext)
    exact ⟨congrArg toString hversion, hpatch.updateLines_eq hfits⟩

theorem delta_brings_up_to_date_after_change :
    let s := ((start .firstBang .default).performAll [.didOpen "u" ['a', '!', '\n', 'b']]).1
    let t := (s.performAll [.full "u", .didChange "u" [⟨⟨⟨1, 1⟩, ⟨1, 1⟩⟩, "!"⟩]]).1
    ∃ first last answer, s.documents.get? "u" = some first ∧ t.documents.get? "u" = some last ∧
      (t.tokensDelta "u" (toString first.result.version)).2 = .ok answer ∧
      answer.expected = none ∧ answer.delta.edits = [⟨5, 5, [1, 1, 1, 15, 0]⟩] ∧
      answer.delta.updateLines first.result.table.get? = last.result.table.get? := by
  intro s t
  have hran : Runs (fun _ => True) (start .firstBang .default) s :=
    Runs.start.performAll fun _ _ => trivial
  have hkept : Runs (Command.Keeps "u") s t := by
    refine Runs.start.performAll fun command hcommand => ?_
    rcases List.mem_cons.mp hcommand with rfl | hcommand
    · trivial
    · rw [List.mem_singleton.mp hcommand]
      trivial
  have hversion : (s.documents.get? "u").map (·.result.version) = some 1 := by decide +kernel
  obtain ⟨first, hfirst, hversion⟩ := Option.map_eq_some_iff.mp hversion
  obtain ⟨last, answer, hlast, hanswer, hleads⟩ := delta_brings_up_to_date hran hfirst hkept
  have hone : (t.tokensDelta "u" (toString first.result.version)).2 =
      .ok ⟨⟨"2", [⟨5, 5, [1, 1, 1, 15, 0]⟩]⟩, none⟩ := by
    rw [hversion]
    decide +kernel
  obtain rfl : answer = ⟨⟨"2", [⟨5, 5, [1, 1, 1, 15, 0]⟩]⟩, none⟩ :=
    Except.ok.inj (hanswer.symm.trans hone)
  have htable : (t.documents.get? "u").map (·.result.table) =
      some ⟨[[some ⟨0, 1, 1, .holds⟩, some ⟨1, 1, 1, .holds⟩]], 2⟩ := by decide +kernel
  rw [hlast] at htable
  have htable : last.result.table = ⟨[[some ⟨0, 1, 1, .holds⟩, some ⟨1, 1, 1, .holds⟩]], 2⟩ :=
    Option.some.inj htable
  have hfits : last.result.table.Fits := by
    rw [htable]
    exact ⟨fun line hline => Nat.lt_of_lt_of_le (Nat.mul_lt_mul_of_pos_right hline (by decide))
      (by decide), by decide⟩
  obtain ⟨-, hupdate⟩ := hleads hfits rfl
  exact ⟨first, last, _, hfirst, hlast, hanswer, rfl, rfl, hupdate⟩

end Server

end LineTokens
