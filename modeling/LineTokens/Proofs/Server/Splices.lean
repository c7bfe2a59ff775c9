import LineTokens.Proofs.Encoding.Splice
import LineTokens.Proofs.Server.Deltas

/-! Delta answers as splices of the data of full answers. An edit addresses its line by five words
for each line before it and its record is encoded by itself. So the client's data comes to hold that
record on each edited line and its own records on all others, where no line without a token comes
between the lines before an edited one that have tokens. This is the data of the published table if,
and only if, no edited line has a token before it but on line 0 and all other records tell the same
distances as before. -/

namespace LineTokens

namespace Server

open Encoding

variable {tokenizer : Tokenizer} {options : ServerOptions} {s t : Server} {uri : String}

/-- The published table is that of some lines. -/
theorem Sound.tokenizes {d : Document} (h : s.Sound) (hd : s.documents.get? uri = some d) :
    ∃ lines, d.result.table.Tokenizes s.tokenizer lines := by
  obtain ⟨commits, hstands⟩ := (h uri d hd).stands
  exact ⟨_, hstands.reached.sound_exact.2.tokenizes⟩

theorem tokensFull_eq {d : Document} (hd : s.documents.get? uri = some d) :
    s.tokensFull uri = .ok ⟨some (toString d.result.version), encodeFull d.result.table⟩ := by
  rw [tokensFull, result_eq hd]
  rfl

/-- A document that is neither opened nor closed meanwhile has its delta requests answered. An
answer that expects no other version has no edits, if nothing has been published, or else those of
the patch to the next result. -/
theorem delta_leads {first : Document} (hsound : s.Sound)
    (hfirst : s.documents.get? uri = some first) (hkept : Runs (Command.Keeps uri) s t) :
    ∃ last answer, t.documents.get? uri = some last ∧
      (t.tokensDelta uri (toString first.result.version)).2 = .ok answer ∧
      (answer.expected = none →
        last.result = first.result ∧ answer.delta.edits = [] ∨
          ∃ patch : Patch, patch.Leads first.result last.result ∧
            answer.delta = Encoding.encodePatch patch) := by
  obtain ⟨last, hlast, hlater⟩ := (hkept.later hsound).after hfirst
  obtain ⟨commits, hstands⟩ := (hsound uri first hfirst).stands
  obtain ⟨commits', hstands', hrun⟩ := hlater.content commits hstands
  have hsince : (last.content.relay commits').Since first.result := hstands.reached.since hrun
  obtain ⟨hversion, hleads⟩ := takePatch_since hstands' hsince
  refine ⟨last, deltaAnswer last.content.takePatch.2 (toString first.result.version), hlast, ?_,
    fun hexpected => ?_⟩
  · rw [tokensDelta, document_eq_ok_iff.mpr hlast]
    rfl
  · rcases deltaAnswer_cases hexpected with ⟨hsame, hdelta⟩ | ⟨hnonempty, hnext, hdelta⟩
    · exact .inl ⟨hsince.result_eq (hversion.symm.trans hsame), congrArg TokensDelta.edits hdelta⟩
    · exact .inr ⟨_, hleads hnonempty (hversion.symm.trans hnext), hdelta⟩

/-- The edits of an answer that expects no other version, all on lines with which the records of the
data before are aligned. Done on the data of the full answer before, they leave the new record on
each edited line, encoded by itself, and all other records as they were. This is the data of the
full answer after if, and only if, the records stand: tokens of edited lines have none before them
but on line 0, and all others have the token before them on the line on which it was, if every token
names its line. -/
theorem delta_splices_data {first : Document}
    (hran : Runs (fun _ => True) (start tokenizer options) s)
    (hfirst : s.documents.get? uri = some first) (hkept : Runs (Command.Keeps uri) s t) :
    ∃ last answer, t.documents.get? uri = some last ∧
      (t.tokensDelta uri (toString first.result.version)).2 = .ok answer ∧
      let before := first.result.table
      let after := last.result.table
      let edited := answer.delta.edits.map (·.line)
      s.tokensFull uri = .ok ⟨some (toString first.result.version), encodeFull before⟩ ∧
      t.tokensFull uri = .ok ⟨some (toString last.result.version), encodeFull after⟩ ∧
      (after.Fits → answer.expected = none → (∀ line ∈ edited, Aligned before.get? line) →
        answer.delta.splice (encodeFull before) =
          (List.range' 0 (max before.size after.size)).flatMap
            (splicedRecord before.get? after.get? edited) ∧
        (answer.delta.splice (encodeFull before) = encodeFull after ↔
          RecordsStand before.get? after.get? edited) ∧
        (tokenizer.KeepsLine → (RecordsStand before.get? after.get? edited ↔
          ∀ token ∈ after.tokens, lineBefore after.get? token.line =
            if token.line ∈ edited then 0 else lineBefore before.get? token.line))) := by
  obtain ⟨hsound, htokenizer, -⟩ := hran.sound (sound_start tokenizer options)
  obtain ⟨hsound', htokenizer', -⟩ := hkept.sound hsound
  obtain ⟨last, answer, hlast, hanswer, hcases⟩ := delta_leads hsound hfirst hkept
  obtain ⟨lines, hbefore⟩ := hsound.tokenizes hfirst
  obtain ⟨lines', hafter⟩ := hsound'.tokenizes hlast
  rw [htokenizer] at hbefore
  rw [htokenizer', htokenizer] at hafter
  refine ⟨last, answer, hlast, hanswer, tokensFull_eq hfirst, tokensFull_eq hlast,
    fun hfits hexpected haligned => ?_⟩
  rcases hcases hexpected with ⟨hsame, hedits⟩ | ⟨patch, hleads, hdelta⟩
  · have hnone : answer.delta.edits.map (·.line) = [] := by rw [hedits, List.map_nil]
    have hsplice : answer.delta.splice (encodeFull first.result.table) =
        encodeFull first.result.table := by
      rw [TokensDelta.splice, hedits]
      rfl
    rw [hnone, hsplice, hsame]
    refine ⟨?_, iff_of_true rfl (recordsStand_nil _), fun hkeeps => ?_⟩
    · rw [splicedRecord_nil, max_self, encodeFull_eq hbefore.canonical]
    · exact hbefore.recordsStand_iff hkeeps hbefore (hsame ▸ hfits) fun _ _ => rfl
  · have hlines := hleads.lines_encodePatch hfits
    rw [hdelta] at haligned ⊢
    rw [hlines] at haligned ⊢
    exact ⟨hleads.splice_encodeFull hbefore.canonical hfits haligned,
      hleads.splice_encodeFull_iff hbefore.canonical hafter.canonical hfits haligned,
      fun hkeeps => hafter.recordsStand_iff hkeeps hbefore hfits fun line hout =>
        hleads.get?_of_notMem hout⟩

/-- The token before the edited line is on line 0, and the lines after it are not edited. -/
theorem delta_splices_data_four_lines :
    let s := ((start .firstBang .default).performAll
      [.didOpen "u" "a!\nb!\nc!\nd!".toList]).1
    let t := (s.performAll [.full "u", .didChange "u" [⟨⟨⟨1, 0⟩, ⟨1, 0⟩⟩, "x"⟩]]).1
    ∃ first last answer, s.documents.get? "u" = some first ∧ t.documents.get? "u" = some last ∧
      (t.tokensDelta "u" (toString first.result.version)).2 = .ok answer ∧
      last.result.table.Fits ∧ answer.expected = none ∧
      answer.delta.edits = [⟨5, 5, [1, 2, 1, 15, 0]⟩] ∧
      (∀ line ∈ answer.delta.edits.map (·.line), Aligned first.result.table.get? line) ∧
      t.tokensFull "u" =
        .ok ⟨some "2", [0, 1, 1, 15, 0, 1, 2, 1, 15, 0, 1, 1, 1, 15, 0, 1, 1, 1, 15, 0]⟩ ∧
      answer.delta.splice (encodeFull first.result.table) = encodeFull last.result.table := by
  intro s t
  have hran : Runs (fun _ => True) (start .firstBang .default) s :=
    Runs.start.performAll fun _ _ => trivial
  have hkept : Runs (Command.Keeps "u") s t := by
    refine Runs.start.performAll fun command hcommand => ?_
    rcases List.mem_cons.mp hcommand with rfl | hcommand
    · trivial
    · rw [List.mem_singleton.mp hcommand]
      trivial
  let before : TokenTable :=
    ⟨[[some ⟨0, 1, 1, .holds⟩, some ⟨1, 1, 1, .holds⟩, some ⟨2, 1, 1, .holds⟩,
      some ⟨3, 1, 1, .holds⟩]], 4⟩
  let after : TokenTable :=
    ⟨[[some ⟨0, 1, 1, .holds⟩, some ⟨1, 2, 1, .holds⟩, some ⟨2, 1, 1, .holds⟩,
      some ⟨3, 1, 1, .holds⟩]], 4⟩
  have hbefore : (s.documents.get? "u").map (fun d => (d.result.version, d.result.table)) =
      some (1, before) := by decide +kernel
  have hafter : (t.documents.get? "u").map (·.result.table) = some after := by decide +kernel
  obtain ⟨first, hfirst, hresult⟩ := Option.map_eq_some_iff.mp hbefore
  obtain ⟨hversion, htable⟩ := Prod.mk.inj hresult
  obtain ⟨last, answer, hlast, hanswer, -, -, hsplices⟩ :=
    delta_splices_data hran hfirst hkept
  rw [hlast] at hafter
  have hafter : last.result.table = after := Option.some.inj hafter
  have hone : (t.tokensDelta "u" (toString first.result.version)).2 =
      .ok ⟨⟨"2", [⟨5, 5, [1, 2, 1, 15, 0]⟩]⟩, none⟩ := by
    rw [hversion]
    decide +kernel
  obtain rfl : answer = ⟨⟨"2", [⟨5, 5, [1, 2, 1, 15, 0]⟩]⟩, none⟩ :=
    Except.ok.inj (hanswer.symm.trans hone)
  have hfits : last.result.table.Fits := by
    rw [hafter]
    exact ⟨fun line hline => Nat.lt_of_lt_of_le (Nat.mul_lt_mul_of_pos_right hline (by decide))
      (by decide), by decide⟩
  have haligned : ∀ line ∈ [1], Aligned first.result.table.get? line := by
    intro line hline
    rw [List.mem_singleton.mp hline, htable]
    exact .inl (by decide)
  obtain ⟨-, hiff, hdistances⟩ := hsplices hfits rfl haligned
  have hstand : RecordsStand first.result.table.get? last.result.table.get? [1] := by
    refine (hdistances Tokenizer.keepsLine_firstBang).mpr ?_
    rw [hafter, htable]
    decide
  exact ⟨first, last, _, hfirst, hlast, hanswer, hfits, rfl, rfl, haligned, by decide +kernel,
    hiff.mpr hstand⟩

/-- The first line has no token, so the record of line 1 comes first in the data, and the edit for
line 1 replaces that of line 2. -/
theorem delta_edits_misplaced :
    let s := ((start Comparison.tokenizer .default).performAll
      [.didOpen "u" "x\n1 EQUALS 1\n1 EQUALS 1".toList]).1
    let t := (s.performAll [.full "u", .didChange "u" [⟨⟨⟨1, 0⟩, ⟨1, 0⟩⟩, "1"⟩]]).1
    let before := [1, 2, 6, 15, 0, 1, 2, 6, 15, 0]
    let delta : TokensDelta := ⟨"2", [⟨5, 5, [1, 3, 6, 18, 0]⟩]⟩
    let after := [1, 3, 6, 18, 0, 1, 2, 6, 15, 0]
    s.tokensFull "u" = .ok ⟨some "1", before⟩ ∧
      (t.tokensDelta "u" "1").2 = .ok ⟨delta, none⟩ ∧
      (t.tokensDelta "u" "1").1.tokensFull "u" = .ok ⟨some "2", after⟩ ∧
      delta.splice before = [1, 2, 6, 15, 0, 1, 3, 6, 18, 0] ∧ delta.splice before ≠ after := by
  decide +kernel

end Server

end LineTokens
