import LineTokens.Analysis.Progress
import LineTokens.Proofs.Analysis.Pending

/-! A buffer with its analyzer, between calls. `Stands` says that its relay has been reached from
the start with commits told one at a time, and that the worker waits or is stopped in a call;
`Later` says that one buffer is another some calls later. -/

namespace LineTokens

namespace AnalyzedBuffer

/-- The relay of a buffer of which the analyzer has been told everything. -/
def relay (b : AnalyzedBuffer) (commits : Commits) : Relay := ⟨commits, ∅, none, b.analyzer⟩

structure Stands (tokenizer : Tokenizer) (commits : Commits) (b : AnalyzedBuffer) : Prop where
  reached : Relay.Run tokenizer .start (b.relay commits)
  current_eq : b.buffer.current = commits.latest
  rests : b.analyzer.Rests tokenizer b.gate

/-- Wherever the first buffer stands, the second one stands some steps later. -/
def Later (tokenizer : Tokenizer) (b b' : AnalyzedBuffer) : Prop :=
  ∀ commits, b.Stands tokenizer commits → ∃ commits', b'.Stands tokenizer commits' ∧
    Relay.Run tokenizer (b.relay commits) (b'.relay commits')

variable {tokenizer : Tokenizer} {b b' b'' : AnalyzedBuffer} {commits commits' : Commits}

theorem Later.refl (b : AnalyzedBuffer) : b.Later tokenizer b :=
  fun commits h => ⟨commits, h, .refl⟩

theorem Later.trans (h : b.Later tokenizer b') (h' : b'.Later tokenizer b'') :
    b.Later tokenizer b'' := by
  intro commits hstands
  obtain ⟨middle, hmiddle, hrun⟩ := h commits hstands
  obtain ⟨last, hlast, hmore⟩ := h' middle hmiddle
  exact ⟨last, hlast, hrun.trans hmore⟩

/-! ### Steps of the worker and of a notice -/

theorem run_work {a : Analyzer} {gate : Gate} {steps : Nat} {unsent : Set Change}
    {stage : Option NoticeStage} (calls : List Call) :
    Relay.Run tokenizer ⟨commits, unsent, stage, a⟩
      ⟨commits, unsent, stage, (a.runFor tokenizer gate steps calls).1⟩ := by
  induction steps generalizing a calls with
  | zero => exact .refl
  | succ steps ih =>
    unfold Analyzer.runFor
    split
    · exact .refl
    · rename_i next hstep
      have hfirst : Relay.Step tokenizer True ⟨commits, unsent, stage, a⟩
          ⟨commits, unsent, stage, next⟩ := .work next hstep
      split
      · exact .head hfirst (ih calls)
      · split
        · exact .head hfirst (ih _)
        · exact .single hfirst

/-- A batch is committed, and the analyzer is told of the change in all stages. -/
theorem run_notice {a : Analyzer} {batch : List Edit} {change : Change}
    (hchained : commits.Chained) (happly : commits.latest.apply batch = .ok (some change)) :
    Relay.Run tokenizer ⟨commits, ∅, none, a⟩
      ⟨commits ++ [change], ∅, none, a.onChange change⟩ := by
  have hheld : Commits.Held (commits ++ [change]) change.snapshot := by
    rw [← Commits.latest_concat commits change]
    exact (hchained.concat happly).held_latest
  refine .head (.commit batch change happly) (.head (.begin rfl) ?_)
  refine .head (.notice change .install _ rfl rfl) (.head (.notice change _ .submit rfl rfl) ?_)
  refine .head (.notice change .submit .send rfl rfl) (.single ?_)
  refine .send change change ∅ rfl hheld rfl (Nat.le_refl _) ?_ (Set.empty_subset _) fun _ => rfl
  rintro other (rfl | hother)
  · exact .inl rfl
  · exact absurd hother (Set.notMem_empty _)

/-! ### Idle analyzers -/

theorem Stands.wellFormed (h : b.Stands tokenizer commits) : b.buffer.current.WellFormed := by
  rw [h.current_eq]
  exact h.reached.sound_exact.1.chained.wellFormed (Nat.le_refl _)

/-- An idle analyzer has published the tokens of every line of the buffer. -/
theorem Stands.tokenizes (h : b.Stands tokenizer commits) (hidle : b.analyzer.isIdle = true) :
    b.analyzer.result.table.Tokenizes tokenizer b.buffer.current.lines := by
  obtain ⟨hsound, hexact⟩ := h.reached.sound_exact
  obtain ⟨-, -, hversion⟩ := hsound.settled rfl rfl hidle
  have htokenizes : b.analyzer.result.table.Tokenizes tokenizer
      (commits.snapshot b.analyzer.result.snapshotVersion).lines := hexact.tokenizes
  have hlatest : commits.snapshot b.analyzer.result.snapshotVersion = b.buffer.current := by
    rw [h.current_eq, Commits.latest]
    exact congrArg _ hversion
  rwa [hlatest] at htokenizes

/-- With the gate open, the analyzer is idle between calls. -/
theorem Stands.idle (h : b.Stands tokenizer commits) (hgate : b.gate = .opened) :
    b.analyzer.isIdle = true := by
  have hnone : b.analyzer.workerStep tokenizer = none := by
    refine h.rests.resolve_right ?_
    rintro ⟨hclosed, -⟩
    rw [hgate] at hclosed
    cases hclosed
  obtain ⟨hphase, hqueue⟩ := Analyzer.workerStep_eq_none_iff.mp hnone
  have hcounted : b.analyzer.submitted = b.analyzer.settled + b.analyzer.phase.consumed +
      b.analyzer.queue.length + 0 := h.reached.sound_exact.1.attentive.counted
  rw [hphase, hqueue] at hcounted
  simp only [WorkerPhase.consumed, List.length_nil, Nat.add_zero] at hcounted
  simp [Analyzer.isIdle, hcounted]

/-- Between calls, no result waits to be published. -/
theorem Stands.isPublishing_eq_false (h : b.Stands tokenizer commits) :
    b.analyzer.isPublishing = false := by
  unfold Analyzer.isPublishing
  split
  · rename_i consumed result hphase
    rcases h.rests with hnone | ⟨-, hrunning⟩
    · rw [Analyzer.workerStep_eq_none_iff, hphase] at hnone
      obtain ⟨hwaiting, -⟩ := hnone
      cases hwaiting
    · rw [Analyzer.runningCall?, hphase] at hrunning
      cases hrunning
  · rfl

/-! ### Calls -/

theorem Stands.next (h : b.Stands tokenizer commits)
    (hrun : Relay.Run tokenizer (b.relay commits) (b'.relay commits'))
    (hcurrent : b'.buffer.current = commits'.latest)
    (hrests : b'.analyzer.Rests tokenizer b'.gate) :
    ∃ commits', b'.Stands tokenizer commits' ∧
      Relay.Run tokenizer (b.relay commits) (b'.relay commits') :=
  ⟨commits', ⟨h.reached.trans hrun, hcurrent, hrests⟩, hrun⟩

theorem stands_start (tokenizer : Tokenizer) (gate : Gate) : (start gate).Stands tokenizer [] :=
  ⟨.refl, rfl, .inl rfl⟩

/-- Letting the worker go on, with the gate set in any way. -/
theorem later_run (b : AnalyzedBuffer) (gate : Gate) :
    b.Later tokenizer ({ b with gate }.run tokenizer) :=
  fun _ h => h.next (run_work b.calls) h.current_eq (Analyzer.rests_run _ _ _ _)

theorem later_hold (b : AnalyzedBuffer) : b.Later tokenizer b.hold :=
  fun _ h => h.next .refl h.current_eq (h.rests.imp id fun hclosed => ⟨rfl, hclosed.2⟩)

theorem later_release (b : AnalyzedBuffer) : b.Later tokenizer (b.release tokenizer) :=
  b.later_run .opened

theorem later_step (b : AnalyzedBuffer) : b.Later tokenizer (b.step tokenizer) := by
  unfold step
  split
  · exact b.later_run .closed
  · exact .refl b

theorem takePatch_eq (b : AnalyzedBuffer) :
    b.takePatch = ({ b with analyzer := b.analyzer.swapPatch.1 },
      b.analyzer.patch.getD b.analyzer.emptyPatch) := by
  unfold takePatch Analyzer.takePatch Analyzer.swapPatch
  cases b.analyzer.patch <;> rfl

theorem later_takePatch (b : AnalyzedBuffer) : b.Later tokenizer b.takePatch.1 := by
  rw [takePatch_eq]
  intro commits h
  refine h.next (.single .take) h.current_eq (h.rests.imp (fun hnone => ?_) id)
  rw [Analyzer.workerStep_eq_none_iff] at hnone ⊢
  exact hnone

/-- The buffer with a change committed, after the analyzer has been told of it. -/
def accept (tokenizer : Tokenizer) (b : AnalyzedBuffer) (change : Change) : AnalyzedBuffer :=
  { b with buffer := { b.buffer with current := change.snapshot } }.tell tokenizer change

theorem accept_eq (tokenizer : Tokenizer) (b : AnalyzedBuffer) (change : Change) :
    (b.accept tokenizer change).buffer.current = change.snapshot ∧
      (b.accept tokenizer change).gate = b.gate := by
  unfold accept tell
  dsimp only
  split <;> exact ⟨rfl, rfl⟩

/-- A change told to the analyzer, which then goes on as far as the gate lets it. -/
theorem Stands.accept (h : b.Stands tokenizer commits) {batch : List Edit} {change : Change}
    (happly : b.buffer.current.apply batch = .ok (some change)) :
    (b.accept tokenizer change).Stands tokenizer (commits ++ [change]) ∧
      Relay.Run tokenizer (b.relay commits)
        ((b.accept tokenizer change).relay (commits ++ [change])) := by
  have hchained := h.reached.sound_exact.1.chained
  rw [h.current_eq] at happly
  have hnotice : Relay.Run tokenizer (b.relay commits)
      ⟨commits ++ [change], ∅, none, b.analyzer.onChange change⟩ := run_notice hchained happly
  unfold AnalyzedBuffer.accept tell
  dsimp only
  split
  · rename_i call hcall
    -- A worker that is stopped in a call stays there.
    have hclosed : b.gate = .closed := by
      rcases h.rests with hnone | ⟨hclosed, -⟩
      · rw [Analyzer.workerStep_eq_none_iff] at hnone
        have hphase : (b.analyzer.onChange change).phase = .waiting := hnone.1
        rw [Analyzer.runningCall?, hphase] at hcall
        cases hcall
      · exact hclosed
    refine ⟨⟨h.reached.trans hnotice, (Commits.latest_concat _ _).symm, .inr ⟨hclosed, ?_⟩⟩,
      hnotice⟩
    show (Analyzer.runningCall? _).isSome = true
    rw [hcall]
    rfl
  · refine ⟨⟨h.reached.trans (hnotice.trans (run_work b.calls)), (Commits.latest_concat _ _).symm,
      Analyzer.rests_run _ _ _ _⟩, hnotice.trans (run_work b.calls)⟩

theorem replace_of_change {edits : List Edit} {change : Change}
    (h : b.buffer.current.apply edits = .ok (some change)) :
    b.replace tokenizer edits = .ok (b.accept tokenizer change, some change) := by
  rw [replace, TextBuffer.replace, h]
  rfl

theorem later_replace {edits : List Edit} {change : Option Change}
    (h : b.replace tokenizer edits = .ok (b', change)) : b.Later tokenizer b' := by
  intro commits hstands
  unfold replace TextBuffer.replace at h
  cases happly : b.buffer.current.apply edits with
  | error error =>
    rw [happly] at h
    cases h
  | ok outcome =>
    rw [happly] at h
    cases outcome with
    | none =>
      cases h
      exact ⟨commits, hstands, .refl⟩
    | some change =>
      cases h
      exact ⟨_, hstands.accept happly⟩

/-- Lines are never removed. -/
theorem Stands.lineCount_le (h : b.Stands tokenizer commits) (h' : b'.Stands tokenizer commits')
    (hrun : Relay.Run tokenizer (b.relay commits) (b'.relay commits')) :
    b.buffer.current.lineCount ≤ b'.buffer.current.lineCount := by
  obtain ⟨hsound, hexact⟩ := h.reached.sound_exact
  have hgrow : commits <+: commits' := (hrun.grows hsound hexact).commits_grow
  rw [h.current_eq, h'.current_eq]
  exact h'.reached.sound_exact.1.chained.lineCount_le_of_prefix hgrow

end AnalyzedBuffer

end LineTokens
