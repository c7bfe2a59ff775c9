import LineTokens.Analysis.Gate

/-!
The worker's progress. Each step uses up one of the steps left, so a run goes on until the worker
waits for a request or the gate stops it in a call.
-/

namespace LineTokens.Analyzer

theorem size_carried_drain_le (requests : List Change) (carried : LineSet) :
    (requests.foldl (fun lines request => lines.union request.changedLines) carried).size ≤
      carried.size + (requests.flatMap (·.changedLines.lines)).length := by
  induction requests generalizing carried with
  | nil => simp
  | cons request rest ih =>
    rw [List.foldl_cons, List.flatMap_cons, List.length_append]
    have hrest := ih (carried.union request.changedLines)
    have hunion := LineSet.size_union_le carried request.changedLines
    simp only [LineSet.size] at hrest hunion ⊢
    omega

theorem stepsLeft_check_lt (a : Analyzer) (pass : Pass) (carried : Nat) :
    (a.check pass).stepsLeft carried < (WorkerPhase.checking pass).stepsLeft carried := by
  unfold check
  split
  · simp only [WorkerPhase.stepsLeft]
    omega
  · split
    · simp only [WorkerPhase.stepsLeft]
      omega
    · rename_i line left hleft
      split
      · simp only [WorkerPhase.stepsLeft, hleft, List.length_cons]
        omega
      · simp only [WorkerPhase.stepsLeft, hleft, List.length_cons]
        omega

theorem stepsLeft_workerStep_lt {tokenizer : Tokenizer} {a b : Analyzer}
    (h : a.workerStep tokenizer = some b) : b.stepsLeft < a.stepsLeft := by
  unfold workerStep at h
  split at h
  · rename_i hphase
    split at h
    · cases h
    · rename_i hqueue
      cases h
      have := size_carried_drain_le a.queue a.carried
      simp only [stepsLeft, drain, hphase, hqueue, WorkerPhase.stepsLeft, List.isEmpty_nil,
        if_true, Bool.false_eq_true, if_false]
      omega
  · rename_i consumed hphase
    cases h
    simp only [stepsLeft, hphase, WorkerPhase.stepsLeft]
    omega
  · rename_i consumed flag hphase
    split at h
    · cases h
      simp only [stepsLeft, hphase, WorkerPhase.stepsLeft]
      omega
    · cases h
      simp only [stepsLeft, hphase, WorkerPhase.stepsLeft, Pass.start, LineSet.size]
      omega
  · rename_i pass hphase
    cases h
    have := stepsLeft_check_lt a pass a.carried.size
    simp only [stepsLeft, hphase] at *
    omega
  · rename_i pass line text hphase
    cases h
    simp only [stepsLeft, hphase, WorkerPhase.stepsLeft, Pass.enter]
    omega
  · rename_i consumed result patch hphase
    cases h
    simp only [stepsLeft, hphase, WorkerPhase.stepsLeft]
    omega
  · rename_i consumed result hphase
    cases h
    simp only [stepsLeft, hphase, WorkerPhase.stepsLeft, LineSet.size, LineSet.empty,
      List.length_nil]
    split <;> omega
  · rename_i consumed hphase
    cases h
    simp only [stepsLeft, hphase, WorkerPhase.stepsLeft]
    omega

/-- The worker waits, or the closed gate has stopped it in a call. -/
def Rests (tokenizer : Tokenizer) (gate : Gate) (a : Analyzer) : Prop :=
  a.workerStep tokenizer = none ∨ gate = .closed ∧ a.runningCall?.isSome = true

theorem rests_runFor {tokenizer : Tokenizer} {gate : Gate} {steps : Nat} {a : Analyzer}
    (calls : List Call) (h : a.stepsLeft ≤ steps) :
    (a.runFor tokenizer gate steps calls).1.Rests tokenizer gate := by
  induction steps generalizing a calls with
  | zero =>
    refine .inl ?_
    cases hs : a.workerStep tokenizer with
    | none => rw [runFor, hs]
    | some b =>
      have := stepsLeft_workerStep_lt hs
      omega
  | succ steps ih =>
    unfold runFor
    split
    · rename_i hs
      exact .inl hs
    · rename_i b hs
      have hlt := stepsLeft_workerStep_lt hs
      split
      · exact ih calls (by omega)
      · rename_i call hcall
        split
        · exact ih (calls ++ [call]) (by omega)
        · exact .inr ⟨rfl, by rw [hcall]; rfl⟩

theorem rests_run (tokenizer : Tokenizer) (gate : Gate) (a : Analyzer) (calls : List Call) :
    (a.run tokenizer gate calls).1.Rests tokenizer gate :=
  rests_runFor calls (Nat.le_refl _)

/-- A worker that waits has an empty queue. -/
theorem workerStep_eq_none_iff {tokenizer : Tokenizer} {a : Analyzer} :
    a.workerStep tokenizer = none ↔ a.phase = .waiting ∧ a.queue = [] := by
  constructor
  · intro h
    unfold workerStep at h
    split at h
    · rename_i hphase
      split at h
      · rename_i hqueue
        exact ⟨hphase, List.isEmpty_iff.mp hqueue⟩
      · cases h
    · cases h
    · split at h <;> cases h
    · cases h
    · cases h
    · cases h
    · cases h
    · cases h
  · rintro ⟨hphase, hqueue⟩
    simp [workerStep, hphase, hqueue]

end LineTokens.Analyzer
