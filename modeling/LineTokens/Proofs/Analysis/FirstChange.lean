import LineTokens.Proofs.Analysis.Supersession

/-! The first change of which a new analyzer is told. Its worker takes it up at once: with the gate
open, a pass over the changed lines, and no others, comes to its end; with the gate closed, the pass
is stopped in the call for the first of them. -/

namespace LineTokens

theorem LineSet.lines_eq_of_mem_iff {s t : LineSet} (h : ∀ line, line ∈ s ↔ line ∈ t) :
    s.lines = t.lines :=
  ((List.perm_ext_iff_of_nodup (s.ascending.imp Nat.ne_of_lt)
    (t.ascending.imp Nat.ne_of_lt)).mpr h).eq_of_pairwise
      (fun _ _ _ _ hlt hgt => absurd hgt (Nat.lt_asymm hlt)) s.ascending t.ascending

namespace Analyzer

variable {tokenizer : Tokenizer} {a b : Analyzer} {change : Change}

/-- What a new analyzer has come to when it has been told of one change and of nothing else. -/
inductive TookUp (change : Change) : Gate → Analyzer → Prop
  | completed {a : Analyzer} {patch : Patch} (delivered : a.Delivered [] a.result patch)
      (version_eq : a.result.version = 1)
      (snapshotVersion_eq : a.result.snapshotVersion = change.snapshot.version)
      (lines_eq : patch.entries.map (·.line) = change.changedLines.lines) :
      TookUp change .opened a
  | stopped {a : Analyzer} {pass : Pass} {line : Nat} {text : List Char}
      (phase_eq : a.phase = .calling pass line text) (queue_eq : a.queue = [])
      (result_eq : a.result = .empty) (snapshot_eq : pass.snapshot = change.snapshot)
      (entries_eq : pass.entries = [])
      (lines_eq : line :: pass.left = change.changedLines.lines) : TookUp change .closed a

/-- A step that enters no call is followed by the next one. -/
theorem runFor_of_turn {event : Option PassEvent} (hturn : a.Turn tokenizer event b)
    (hcall : event.bind PassEvent.call? = none) (gate : Gate) (steps : Nat) (calls : List Call) :
    a.runFor tokenizer gate (steps + 1) calls = b.runFor tokenizer gate steps calls := by
  rw [runFor, hturn.step_eq.1]
  dsimp only
  rw [hturn.runningCall?_eq, hcall]

/-- With the gate closed, the worker stops in the call that it enters. -/
theorem runFor_closed_of_turn {event : Option PassEvent} {call : Call}
    (hturn : a.Turn tokenizer event b) (hcall : event.bind PassEvent.call? = some call)
    (steps : Nat) (calls : List Call) :
    a.runFor tokenizer .closed (steps + 1) calls = (b, calls ++ [call]) := by
  rw [runFor, hturn.step_eq.1]
  dsimp only
  rw [hturn.runningCall?_eq, hcall]

variable (tokenizer change)

theorem carried_drain_onChange :
    (start.onChange change).drain.carried.lines = change.changedLines.lines := by
  refine LineSet.lines_eq_of_mem_iff fun line => ?_
  show line ∈ LineSet.empty.union change.changedLines ↔ line ∈ change.changedLines
  rw [LineSet.mem_union, LineSet.mem_empty, false_or]

variable {change}

theorem tookUp_opened (hexist : ∀ line ∈ change.changedLines,
      (change.snapshot.line? line).isSome = true) {steps : Nat}
    (hsteps : (start.onChange change).stepsLeft ≤ steps) (calls : List Call) :
    TookUp change .opened ((start.onChange change).runFor tokenizer .opened steps calls).1 := by
  obtain ⟨_, c, hadvances, hdelivered⟩ := advances_pass tokenizer (a := start.onChange change) rfl
    (List.cons_ne_nil _ _) rfl
  rw [(hadvances.runFor_opened hdelivered.workerStep_eq_none hsteps calls).1]
  refine .completed (hdelivered.result_eq ▸ hdelivered) ?_ ?_ ?_
  · rw [hdelivered.result_eq]
    exact AnalysisResult.version_complete
  · rw [hdelivered.result_eq]
    exact AnalysisResult.snapshotVersion_complete
  · rw [AnalysisResult.lines_complete, carried_drain_onChange]
    exact List.filter_eq_self.mpr hexist

theorem tookUp_closed (hsome : change.changedLines.lines ≠ [])
    (hexist : ∀ line ∈ change.changedLines, (change.snapshot.line? line).isSome = true)
    {steps : Nat} (hsteps : (start.onChange change).stepsLeft ≤ steps) (calls : List Call) :
    TookUp change .closed ((start.onChange change).runFor tokenizer .closed steps calls).1 := by
  obtain ⟨line, left, hlines⟩ := List.exists_cons_of_ne_nil hsome
  obtain ⟨text, hline⟩ := Option.isSome_iff_exists.mp
    (hexist line (hlines ▸ List.mem_cons_self : line ∈ change.changedLines.lines))
  obtain ⟨more, rfl⟩ : ∃ more, steps = more + 4 := ⟨steps - 4, by
    have : 7 ≤ (start.onChange change).stepsLeft := Nat.le_add_left 7 _
    omega⟩
  let told := start.onChange change
  let pass := Pass.start 1 told.activeFlag change.snapshot told.result told.drain.carried
  let loaded : Analyzer := { told.drain with phase := .flagged 1 told.activeFlag }
  let checking : Analyzer := { told.drain with phase := .checking pass }
  let calling : Analyzer := { told.drain with phase := .calling { pass with left } line text }
  have hdrain : told.Turn tokenizer none told.drain := .drain rfl (List.cons_ne_nil _ _)
  have hload : told.drain.Turn tokenizer none loaded := .load 1 rfl
  have hbegin : loaded.Turn tokenizer (some (.began change.snapshot)) checking :=
    .begin 1 told.activeFlag change.snapshot rfl rfl
  have hcall : checking.Turn tokenizer (some (.called change.snapshot ⟨line, text⟩)) calling :=
    .call pass line left text rfl rfl ((carried_drain_onChange change).trans hlines) hline
  have hrun := (runFor_of_turn hdrain rfl .closed (more + 3) calls).trans <|
    (runFor_of_turn hload rfl .closed (more + 2) calls).trans <|
    (runFor_of_turn hbegin rfl .closed (more + 1) calls).trans <|
    runFor_closed_of_turn hcall rfl more calls
  rw [hrun]
  exact .stopped rfl rfl rfl rfl rfl hlines.symm

end Analyzer

/-- A buffer without lines, of which the first change is told. -/
theorem AnalyzedBuffer.tookUp_accept (tokenizer : Tokenizer) (gate : Gate) {change : Change}
    (hsome : change.changedLines.lines ≠ [])
    (hexist : ∀ line ∈ change.changedLines, (change.snapshot.line? line).isSome = true) :
    ((start gate).accept tokenizer change).analyzer.TookUp change gate := by
  cases gate with
  | opened => exact Analyzer.tookUp_opened tokenizer hexist le_rfl []
  | closed => exact Analyzer.tookUp_closed tokenizer hsome hexist le_rfl []

end LineTokens
