import LineTokens.Proofs.Analysis.Pass

/-! The steps of the worker. `Working` says that the pass under way, or the result about to be
published, comes to what a pass over all carried lines of the newest snapshot completes with.
`WorkerMove` lists what a step can do to the rest of the analyzer. -/

namespace LineTokens

namespace WorkerPhase

def consumed : WorkerPhase → Nat
  | waiting => 0
  | drained consumed | flagged consumed _ | storingPatch consumed _ _ | storingResult consumed _
  | settling consumed => consumed
  | checking pass | calling pass _ _ => pass.consumed

def flag? : WorkerPhase → Option Nat
  | flagged _ flag => some flag
  | checking pass | calling pass _ _ => some pass.flag
  | _ => none

/-- A pass has been begun and has not come to its end. -/
def Underway : WorkerPhase → Prop
  | drained _ | flagged _ _ | checking _ | calling _ _ _ => True
  | _ => False

/-- There is no pass, or it is over and about to be settled. -/
def Over : WorkerPhase → Prop
  | waiting | settling _ => True
  | _ => False

end WorkerPhase

namespace Analyzer

variable {tokenizer : Tokenizer} {a b : Analyzer}

/-- A pass over the carried lines of the newest snapshot completes as `done`. -/
def Completes (tokenizer : Tokenizer) (a : Analyzer) (done : Pass) : Prop :=
  ∃ snapshot consumed flag, a.newest = some snapshot ∧
    done = a.result.complete tokenizer snapshot a.carried consumed flag

/-- The worker's phase fits the analyzer's published result, carried lines and newest snapshot. -/
def Working (tokenizer : Tokenizer) (a : Analyzer) : Prop :=
  match a.phase with
  | .waiting | .settling _ => True
  | .drained _ | .flagged _ _ => a.newest ≠ none
  | .checking pass => a.Completes tokenizer (pass.finish tokenizer)
  | .calling pass line text =>
    a.Completes tokenizer ((pass.enter line (tokenizer line text)).finish tokenizer)
  | .storingPatch _ result patch =>
    ∃ done, a.Completes tokenizer done ∧ result = done.result ∧ patch = done.patch
  | .storingResult _ result =>
    ∃ done, a.Completes tokenizer done ∧ result = done.result ∧
      ∀ patch, a.patch = some patch → patch = done.patch

/-- What one step of the worker makes of the analyzer. -/
inductive WorkerMove (a : Analyzer) : Analyzer → Prop
  | drain (waiting : a.phase = .waiting) (asked : a.queue ≠ []) : WorkerMove a a.drain
  /-- Inside a pass, up to its end with a result or without one. -/
  | proceed (phase : WorkerPhase) (underway : a.phase.Underway)
      (consumed_eq : phase.consumed = a.phase.consumed)
      (flag_eq : ∀ flag, phase.flag? = some flag → a.phase.flag? = some flag ∨ flag = a.activeFlag)
      (next : phase.Underway ∨
        (∃ consumed result patch, phase = .storingPatch consumed result patch) ∨
        phase = .settling a.phase.consumed ∧
          ∃ flag, a.phase.flag? = some flag ∧ a.flags.isTripped flag = true) :
      WorkerMove a { a with phase }
  | storePatch (consumed : Nat) (result : AnalysisResult) (patch : Patch)
      (storing : a.phase = .storingPatch consumed result patch) :
      WorkerMove a { a with patch := some patch, phase := .storingResult consumed result }
  | publish (consumed : Nat) (result : AnalysisResult)
      (storing : a.phase = .storingResult consumed result) :
      WorkerMove a { a with result, carried := .empty, phase := .settling consumed }
  | settle (consumed : Nat) (settling : a.phase = .settling consumed) :
      WorkerMove a { a with settled := a.settled + consumed, phase := .waiting }

/-- The end of a pass, or the look before its next line. -/
theorem check_cases (a : Analyzer) (pass : Pass) :
    a.flags.isTripped pass.flag = true ∧ a.check pass = .settling pass.consumed ∨
    pass.left = [] ∧ a.check pass = .storingPatch pass.consumed pass.result pass.patch ∨
    ∃ line left, pass.left = line :: left ∧
      (pass.snapshot.line? line = none ∧ a.check pass = .checking { pass with left } ∨
        ∃ text, pass.snapshot.line? line = some text ∧
          a.check pass = .calling { pass with left } line text) := by
  unfold check
  split
  · rename_i htripped
    exact .inl ⟨htripped, rfl⟩
  · split
    · rename_i hleft
      exact .inr (.inl ⟨hleft, rfl⟩)
    · rename_i line left hleft
      refine .inr (.inr ⟨line, left, hleft, ?_⟩)
      split
      · rename_i hline
        exact .inl ⟨hline, rfl⟩
      · rename_i text hline
        exact .inr ⟨text, hline, rfl⟩

/-- A drained queue has left a snapshot to work on. -/
theorem newest_drain_ne_none (h : a.queue ≠ []) : a.drain.newest ≠ none := by
  obtain ⟨request, rest, hcons⟩ := List.exists_cons_of_ne_nil h
  have hsome : ∀ (requests : List Change) (seen : Snapshot), requests.foldl
      (fun seen request => some (later seen request.snapshot)) (some seen) ≠ none := by
    intro requests
    induction requests with
    | nil => simp
    | cons first requests ih => exact fun seen => ih _
  simp only [drain, hcons, List.foldl_cons]
  exact hsome rest _

theorem Working.check {pass : Pass} (h : a.Completes tokenizer (pass.finish tokenizer))
    (hphase : a.phase = .checking pass) :
    WorkerMove a { a with phase := a.check pass } ∧
      Working tokenizer { a with phase := a.check pass } := by
  have hunderway : a.phase.Underway := by simp [hphase, WorkerPhase.Underway]
  have hconsumed : pass.consumed = a.phase.consumed := by simp [hphase, WorkerPhase.consumed]
  have hflag : a.phase.flag? = some pass.flag := by simp [hphase, WorkerPhase.flag?]
  rcases a.check_cases pass with ⟨htripped, hcheck⟩ | ⟨hleft, hcheck⟩ |
    ⟨line, left, hleft, ⟨hline, hcheck⟩ | ⟨text, hline, hcheck⟩⟩
  · rw [hcheck]
    exact ⟨.proceed _ hunderway hconsumed (by simp [WorkerPhase.flag?])
      (.inr (.inr ⟨by rw [hconsumed], _, hflag, htripped⟩)), trivial⟩
  · rw [hcheck]
    rw [Pass.finish_of_nil hleft] at h
    exact ⟨.proceed _ hunderway hconsumed (by simp [WorkerPhase.flag?])
      (.inr (.inl ⟨_, _, _, rfl⟩)), pass, h, rfl, rfl⟩
  · rw [hcheck]
    rw [Pass.finish_of_missing hleft hline] at h
    exact ⟨.proceed _ hunderway hconsumed (fun flag hf => .inl (hflag.trans hf)) (.inl trivial), h⟩
  · rw [hcheck]
    rw [Pass.finish_of_present hleft hline] at h
    exact ⟨.proceed _ hunderway hconsumed (fun flag hf => .inl (hflag.trans hf)) (.inl trivial), h⟩

/-- A step of the worker is one of the moves, and its phase still fits. -/
theorem Working.step (h : a.Working tokenizer) (hstep : a.workerStep tokenizer = some b) :
    WorkerMove a b ∧ b.Working tokenizer := by
  unfold workerStep at hstep
  unfold Working at h
  cases hphase : a.phase with
  | waiting =>
    simp only [hphase] at hstep
    split at hstep
    · cases hstep
    · rename_i hqueue
      cases hstep
      have hasked : a.queue ≠ [] := by simpa using hqueue
      exact ⟨.drain hphase hasked, newest_drain_ne_none hasked⟩
  | drained consumed =>
    simp only [hphase] at hstep h
    cases hstep
    refine ⟨.proceed _ (by simp [hphase, WorkerPhase.Underway])
      (by simp [hphase, WorkerPhase.consumed]) ?_ (.inl trivial), h⟩
    rintro flag hflag
    exact .inr (by simpa [WorkerPhase.flag?] using hflag.symm)
  | flagged consumed flag =>
    simp only [hphase] at hstep h
    split at hstep
    · rename_i hnone
      exact absurd hnone h
    · rename_i snapshot hsnapshot
      cases hstep
      refine ⟨.proceed _ (by simp [hphase, WorkerPhase.Underway])
        (by simp [hphase, WorkerPhase.consumed, Pass.start]) ?_ (.inl trivial), ?_⟩
      · intro other hother
        exact .inl (by simpa [hphase, WorkerPhase.flag?, Pass.start] using hother)
      · exact ⟨snapshot, consumed, flag, hsnapshot, rfl⟩
  | checking pass =>
    simp only [hphase] at hstep h
    cases hstep
    exact Working.check h hphase
  | calling pass line text =>
    simp only [hphase] at hstep h
    cases hstep
    refine ⟨.proceed _ (by simp [hphase, WorkerPhase.Underway])
      (by simp [hphase, WorkerPhase.consumed, Pass.enter]) (fun flag hf => .inl ?_)
      (.inl trivial), h⟩
    simpa [hphase, WorkerPhase.flag?, Pass.enter] using hf
  | storingPatch consumed result patch =>
    simp only [hphase] at hstep h
    cases hstep
    obtain ⟨done, hdone, hresult, rfl⟩ := h
    refine ⟨.storePatch _ _ _ hphase, done, hdone, hresult, ?_⟩
    intro patch hpatch
    exact (Option.some.inj hpatch).symm
  | storingResult consumed result =>
    simp only [hphase] at hstep
    cases hstep
    exact ⟨.publish _ _ hphase, trivial⟩
  | settling consumed =>
    simp only [hphase] at hstep
    cases hstep
    exact ⟨.settle _ hphase, trivial⟩

/-- A result about to be published is that of a completed pass, and so is the patch, unless it has
been taken. -/
theorem Working.of_storing (h : a.Working tokenizer) {consumed : Nat} {result : AnalysisResult}
    (hstoring : a.phase = .storingResult consumed result) :
    ∃ done, a.Completes tokenizer done ∧ result = done.result ∧
      ∀ patch, a.patch = some patch → patch = done.patch := by
  simpa only [Working, hstoring] using h

/-- The worker's phase does not depend on the flags, the counts and the queue, and fits also after
the patch has been taken. -/
theorem Working.congr (h : a.Working tokenizer) (hphase : b.phase = a.phase)
    (hnewest : b.newest = a.newest) (hresult : b.result = a.result)
    (hcarried : b.carried = a.carried)
    (hpatch : ∀ patch, b.patch = some patch → a.patch = some patch) : b.Working tokenizer := by
  have hdone : ∀ done, a.Completes tokenizer done → b.Completes tokenizer done := by
    rintro done ⟨snapshot, consumed, flag, hsnapshot, rfl⟩
    exact ⟨snapshot, consumed, flag, hnewest.trans hsnapshot, by rw [hresult, hcarried]⟩
  unfold Working at h ⊢
  rw [hphase]
  cases hp : a.phase with
  | waiting => trivial
  | settling consumed => trivial
  | drained consumed => simpa [hp, hnewest] using h
  | flagged consumed flag => simpa [hp, hnewest] using h
  | checking pass => exact hdone _ (by simpa [hp] using h)
  | calling pass line text => exact hdone _ (by simpa [hp] using h)
  | storingPatch consumed result patch =>
    obtain ⟨done, hcompletes, hrest⟩ : ∃ done, a.Completes tokenizer done ∧
      result = done.result ∧ patch = done.patch := by simpa [hp] using h
    exact ⟨done, hdone done hcompletes, hrest⟩
  | storingResult consumed result =>
    obtain ⟨done, hcompletes, hres, hpat⟩ : ∃ done, a.Completes tokenizer done ∧
      result = done.result ∧ ∀ patch, a.patch = some patch → patch = done.patch := by
        simpa [hp] using h
    exact ⟨done, hdone done hcompletes, hres, fun patch hp => hpat patch (hpatch patch hp)⟩

end Analyzer

end LineTokens
