import LineTokens.Proofs.Analysis.Worker
import LineTokens.Proofs.Buffer.Commits
import Mathlib.Data.Set.Insert

/-! Requests on their way to the worker. `Attentive` says that a pass whose flag has been tripped
has a request to come after it, so that a worker with nothing to do has published the newest
snapshot it has seen. `Receives` says that every commit after that snapshot is still to be heard
of. -/

namespace LineTokens

namespace Analyzer

variable {tokenizer : Tokenizer} {a b : Analyzer} {stage : Option NoticeStage}

/-- The newest snapshot that the worker has taken from the queue. -/
def latestSeen (a : Analyzer) : Snapshot := a.newest.getD .empty

theorem Completes.eq_complete {done : Pass} (h : a.Completes tokenizer done) :
    ∃ consumed flag, done = a.result.complete tokenizer a.latestSeen a.carried consumed flag := by
  obtain ⟨snapshot, consumed, flag, hsnapshot, rfl⟩ := h
  exact ⟨consumed, flag, by rw [latestSeen, hsnapshot]; rfl⟩

theorem Completes.version_eq {done : Pass} (h : a.Completes tokenizer done) :
    done.result.version = a.result.version + 1 := by
  obtain ⟨consumed, flag, rfl⟩ := h.eq_complete
  exact AnalysisResult.version_complete

theorem Completes.snapshotVersion_eq {done : Pass} (h : a.Completes tokenizer done) :
    done.result.snapshotVersion = a.latestSeen.version := by
  obtain ⟨consumed, flag, rfl⟩ := h.eq_complete
  exact AnalysisResult.snapshotVersion_complete

/-! ### Flags and counts -/

/-- A request is in the queue, or a change is about to be counted or queued as one. -/
def RequestDue (stage : Option NoticeStage) (a : Analyzer) : Prop :=
  a.queue ≠ [] ∨ stage = some .submit ∨ stage = some .send

/-- The newest snapshot seen is published, and no line is carried. -/
structure UpToDate (a : Analyzer) : Prop where
  carried_eq : a.carried = .empty
  version_eq : a.latestSeen.version = a.result.snapshotVersion

/-- The flags and counts of an analyzer that is being told of a change, or of none. -/
structure Attentive (stage : Option NoticeStage) (a : Analyzer) : Prop where
  active_lt : a.activeFlag < a.flags.next
  untripped : a.flags.isTripped a.activeFlag = false
  previous : ∀ previous, stage = some (.cancel previous) →
    previous < a.flags.next ∧ previous ≠ a.activeFlag
  superseded : ∀ flag, a.phase.flag? = some flag → a.flags.isTripped flag = true →
    a.RequestDue stage
  finished : a.phase.Over → a.UpToDate ∨ a.RequestDue stage
  counted : a.submitted =
    a.settled + a.phase.consumed + a.queue.length + if stage = some .send then 1 else 0
  busy : a.phase = .waiting ∨ 0 < a.phase.consumed

theorem RequestDue.queued (h : a.RequestDue stage) (hsubmit : stage ≠ some .submit)
    (hsend : stage ≠ some .send) : a.queue ≠ [] :=
  h.resolve_right fun hstage => hstage.elim hsubmit hsend

theorem FlagPool.next_make (pool : FlagPool) : pool.make.next = pool.next + 1 := by
  simp [FlagPool.make, FlagPool.next]

theorem FlagPool.next_trip (pool : FlagPool) (flag : Nat) : (pool.trip flag).next = pool.next := by
  simp [FlagPool.trip, FlagPool.next]

namespace Attentive

theorem start : Attentive none .start :=
  ⟨by decide, by decide, by simp, by simp [Analyzer.start, WorkerPhase.flag?],
    fun _ => .inl ⟨rfl, rfl⟩, by simp [Analyzer.start, WorkerPhase.consumed], .inl rfl⟩

theorem begin (h : Attentive none a) : Attentive (some .install) a := by
  have hdue : a.RequestDue none → a.RequestDue (some .install) :=
    fun hd => .inl (hd.queued (by simp) (by simp))
  exact ⟨h.active_lt, h.untripped, by simp,
    fun flag hf htripped => hdue (h.superseded flag hf htripped),
    fun ho => (h.finished ho).imp_right hdue, by simpa using h.counted, h.busy⟩

theorem notice {stage : NoticeStage} (h : Attentive (some stage) a) (change : Change) :
    Attentive (Analyzer.notice change stage a).2 (Analyzer.notice change stage a).1 := by
  cases stage with
  | install =>
    have hnext := FlagPool.next_make a.flags
    have hdue : a.RequestDue (some .install) → a.queue ≠ [] :=
      fun hd => hd.queued (by simp) (by simp)
    refine ⟨?_, ?_, ?_, fun flag hf htripped => .inl ?_, fun hover => ?_,
      by simpa [Analyzer.notice] using h.counted, h.busy⟩
    · show a.flags.next < a.flags.make.next
      omega
    · show a.flags.make.isTripped a.flags.next = false
      rw [FlagPool.isTripped_make, FlagPool.isTripped_next]
    · rintro previous hprevious
      obtain rfl : a.activeFlag = previous := by simpa [Analyzer.notice] using hprevious
      have := h.active_lt
      exact ⟨show a.activeFlag < a.flags.make.next by omega, Nat.ne_of_lt this⟩
    · exact hdue (h.superseded flag hf ((FlagPool.isTripped_make _ _).symm.trans htripped))
    · exact (h.finished hover).imp (fun hup => ⟨hup.carried_eq, hup.version_eq⟩)
        fun hd => .inl (hdue hd)
  | cancel previous =>
    obtain ⟨hlt, hne⟩ := h.previous previous rfl
    refine ⟨?_, ?_, by simp [Analyzer.notice], fun _ _ _ => .inr (.inl rfl),
      fun _ => .inr (.inr (.inl rfl)), by simpa [Analyzer.notice] using h.counted, h.busy⟩
    · show a.activeFlag < (a.flags.trip previous).next
      rw [FlagPool.next_trip]
      exact h.active_lt
    · show (a.flags.trip previous).isTripped a.activeFlag = false
      rw [FlagPool.isTripped_trip _ hlt, h.untripped]
      simpa using Ne.symm hne
  | submit =>
    refine ⟨h.active_lt, h.untripped, by simp [Analyzer.notice], fun _ _ _ => .inr (.inr rfl),
      fun _ => .inr (.inr (.inr rfl)), ?_, h.busy⟩
    have := h.counted
    simpa [Analyzer.notice] using this
  | send =>
    refine ⟨h.active_lt, h.untripped, by simp [Analyzer.notice], fun _ _ _ => .inl ?_,
      fun _ => .inr (.inl ?_), ?_, h.busy⟩
    · simp [Analyzer.notice]
    · simp [Analyzer.notice]
    · have := h.counted
      simp only [Analyzer.notice, if_true, List.length_append, List.length_singleton] at this ⊢
      simp
      omega

theorem proceed (h : Attentive stage a) {phase : WorkerPhase} (hunderway : a.phase.Underway)
    (hconsumed : phase.consumed = a.phase.consumed)
    (hflag : ∀ flag, phase.flag? = some flag → a.phase.flag? = some flag ∨ flag = a.activeFlag)
    (hover : phase.Over → ∃ flag, a.phase.flag? = some flag ∧ a.flags.isTripped flag = true) :
    Attentive stage { a with phase } := by
  have hbusy : 0 < a.phase.consumed := by
    rcases h.busy with hwaiting | hpos
    · rw [hwaiting] at hunderway
      exact absurd hunderway (by simp [WorkerPhase.Underway])
    · exact hpos
  refine ⟨h.active_lt, h.untripped, h.previous, fun flag hf htripped => ?_, fun hend => .inr ?_, ?_,
    .inr (hconsumed.symm ▸ hbusy)⟩
  · rcases hflag flag hf with hold | rfl
    · exact h.superseded flag hold htripped
    · -- A flag just loaded is the active one, which nobody has tripped.
      rw [show a.flags.isTripped a.activeFlag = false from h.untripped] at htripped
      cases htripped
  · obtain ⟨flag, hf, htripped⟩ := hover hend
    exact h.superseded flag hf htripped
  · show a.submitted = a.settled + phase.consumed + a.queue.length + _
    rw [hconsumed]
    exact h.counted

theorem move (h : Attentive stage a) (hworking : a.Working tokenizer) (hmove : WorkerMove a b) :
    Attentive stage b := by
  cases hmove with
  | drain hwaiting hasked =>
    have hlength : 0 < a.queue.length := List.length_pos_iff.mpr hasked
    refine ⟨h.active_lt, h.untripped, h.previous, by simp [drain, WorkerPhase.flag?],
      fun hover => absurd hover (by simp [drain, WorkerPhase.Over]), ?_, .inr hlength⟩
    have := h.counted
    rw [hwaiting] at this
    simpa [drain, WorkerPhase.consumed] using this
  | proceed phase hunderway hconsumed hflag hnext =>
    refine h.proceed hunderway hconsumed hflag fun hover => ?_
    rcases hnext with hunder | ⟨consumed, result, patch, rfl⟩ | ⟨-, htripped⟩
    · cases phase <;> simp_all [WorkerPhase.Over, WorkerPhase.Underway]
    · exact absurd hover (by simp [WorkerPhase.Over])
    · exact htripped
  | storePatch consumed result patch hstoring =>
    have hcounted := h.counted
    have hbusy := h.busy
    rw [hstoring] at hcounted hbusy
    exact ⟨h.active_lt, h.untripped, h.previous, by simp [WorkerPhase.flag?],
      fun hover => absurd hover (by simp [WorkerPhase.Over]), hcounted,
      .inr (hbusy.resolve_left (by simp))⟩
  | publish consumed result hstoring =>
    have hcounted := h.counted
    have hbusy := h.busy
    rw [hstoring] at hcounted hbusy
    obtain ⟨done, hdone, rfl, -⟩ := hworking.of_storing hstoring
    exact ⟨h.active_lt, h.untripped, h.previous, by simp [WorkerPhase.flag?],
      fun _ => .inl ⟨rfl, hdone.snapshotVersion_eq.symm⟩, hcounted,
      .inr (hbusy.resolve_left (by simp))⟩
  | settle consumed hsettling =>
    have hcounted := h.counted
    have hover := h.finished (by rw [hsettling]; trivial)
    rw [hsettling] at hcounted
    refine ⟨h.active_lt, h.untripped, h.previous, by simp [WorkerPhase.flag?], fun _ => ?_, ?_,
      .inl rfl⟩
    · exact hover.imp_left fun hup => ⟨hup.carried_eq, hup.version_eq⟩
    · simpa [WorkerPhase.consumed] using hcounted

/-- Flags and counts do not depend on the patch. -/
theorem congr (h : Attentive stage a) (patch : Option Patch) :
    Attentive stage { a with patch } :=
  ⟨h.active_lt, h.untripped, h.previous, h.superseded,
    fun hover => (h.finished hover).imp_left fun hup => ⟨hup.carried_eq, hup.version_eq⟩, h.counted,
    h.busy⟩

/-- An idle analyzer has no request left and is up to date, unless a change that has tripped a flag
is still to be counted. -/
theorem idle (h : Attentive stage a) (hidle : a.isIdle = true) (hsubmit : stage ≠ some .submit) :
    a.queue = [] ∧ stage ≠ some .send ∧ a.UpToDate := by
  have hcounted := h.counted
  have hle : a.submitted ≤ a.settled := by simpa [isIdle] using hidle
  have hsend : stage ≠ some .send := by
    intro hsend
    rw [if_pos hsend] at hcounted
    omega
  have hwaiting : a.phase = .waiting := h.busy.resolve_right (by omega)
  have hqueue : a.queue = [] := List.length_eq_zero_iff.mp (by omega)
  refine ⟨hqueue, hsend, (h.finished (by rw [hwaiting]; trivial)).resolve_right ?_⟩
  exact fun hdue => hdue.queued hsubmit hsend hqueue

end Attentive

/-! ### Commits to be heard of -/

/-- The worker's snapshots are the buffer's, and a commit that is newer than all that the worker has
seen is named by a request in the queue or by a writer's notice to come. -/
structure Receives (commits : Commits) (unsent : Set Change) (a : Analyzer) : Prop where
  seen_held : commits.Held a.latestSeen
  queue_held : ∀ request ∈ a.queue, commits.Held request.snapshot
  covered : ∀ k change, a.latestSeen.version ≤ k → commits[k]? = some change →
    (∃ request ∈ a.queue, request.changedLines = change.changedLines ∧
      k < request.snapshot.version) ∨ change ∈ unsent

/-- What the worker has seen after it has emptied the queue. -/
theorem latestSeen_foldl (requests : List Change) (seen : Option Snapshot) :
    let last := (requests.foldl (fun seen request => some (later seen request.snapshot)) seen).getD
      .empty
    (last = seen.getD .empty ∨ ∃ request ∈ requests, last = request.snapshot) ∧
      (seen.getD .empty).version ≤ last.version ∧
      ∀ request ∈ requests, request.snapshot.version ≤ last.version := by
  induction requests generalizing seen with
  | nil => simp
  | cons first rest ih =>
    have hfirst : (later seen first.snapshot = seen.getD .empty ∨
          later seen first.snapshot = first.snapshot) ∧
        (seen.getD .empty).version ≤ (later seen first.snapshot).version ∧
        first.snapshot.version ≤ (later seen first.snapshot).version := by
      unfold later
      cases seen with
      | none => exact ⟨.inr rfl, Nat.zero_le _, Nat.le_refl _⟩
      | some seen =>
        dsimp only [Option.getD_some]
        split
        · rename_i hle
          exact ⟨.inl rfl, Nat.le_refl _, hle⟩
        · exact ⟨.inr rfl, by omega, Nat.le_refl _⟩
    obtain ⟨hmem, hle, hall⟩ := ih (some (later seen first.snapshot))
    rw [List.foldl_cons]
    refine ⟨?_, Nat.le_trans hfirst.2.1 hle, ?_⟩
    · rcases hmem with hlast | ⟨request, hin, hlast⟩
      · rcases hfirst.1 with hseen | hnew
        · exact .inl (hlast.trans hseen)
        · exact .inr ⟨first, by simp, hlast.trans hnew⟩
      · exact .inr ⟨request, by simp [hin], hlast⟩
    · intro request hin
      rcases List.mem_cons.mp hin with rfl | hin
      · exact Nat.le_trans hfirst.2.2 hle
      · exact hall request hin

theorem latestSeen_drain (a : Analyzer) :
    (a.drain.latestSeen = a.latestSeen ∨
        ∃ request ∈ a.queue, a.drain.latestSeen = request.snapshot) ∧
      a.latestSeen.version ≤ a.drain.latestSeen.version ∧
      ∀ request ∈ a.queue, request.snapshot.version ≤ a.drain.latestSeen.version :=
  latestSeen_foldl a.queue a.newest

theorem mem_carried_drain {line : Nat} :
    line ∈ a.drain.carried ↔
      line ∈ a.carried ∨ ∃ request ∈ a.queue, line ∈ request.changedLines := by
  have hfold : ∀ (requests : List Change) (carried : LineSet),
      line ∈ requests.foldl (fun lines request => lines.union request.changedLines) carried ↔
        line ∈ carried ∨ ∃ request ∈ requests, line ∈ request.changedLines := by
    intro requests
    induction requests with
    | nil => simp
    | cons first rest ih =>
      intro carried
      rw [List.foldl_cons, ih, LineSet.mem_union, List.exists_mem_cons_iff, or_assoc]
  exact hfold a.queue a.carried

namespace Receives

variable {commits : Commits} {unsent unsent' : Set Change}

theorem start : Receives [] ∅ .start :=
  ⟨.empty, by simp [Analyzer.start], by simp⟩

theorem commit (h : a.Receives commits unsent) (change : Change)
    (hunsent : unsent ⊆ unsent') (hchange : change ∈ unsent') :
    a.Receives (commits ++ [change]) unsent' := by
  refine ⟨h.seen_held.append _, fun request hr => (h.queue_held request hr).append _, ?_⟩
  intro k other hk hget
  by_cases hlt : k < commits.length
  · rw [List.getElem?_append_left hlt] at hget
    exact (h.covered k other hk hget).imp_right fun hin => hunsent hin
  · obtain rfl : other = change := by
      rw [List.getElem?_append_right (by omega)] at hget
      exact List.mem_singleton.mp (List.mem_of_getElem? hget)
    exact .inr hchange

/-- The request for a commit is sent. It names the lines of the commit and a snapshot that is not
older. -/
theorem send (h : a.Receives commits unsent) (hchained : commits.Chained) {own told : Change}
    (hheld : commits.Held told.snapshot) (hlines : told.changedLines = own.changedLines)
    (hversion : own.snapshot.version ≤ told.snapshot.version)
    (hunsent : ∀ change ∈ unsent, change = own ∨ change ∈ unsent')
    (hqueue : b.queue = a.queue ++ [told]) (hnewest : b.newest = a.newest) :
    b.Receives commits unsent' := by
  have hseen : b.latestSeen = a.latestSeen := congrArg (·.getD .empty) hnewest
  refine ⟨hseen ▸ h.seen_held, fun request hr => ?_, fun k change hk hget => ?_⟩
  · rw [hqueue] at hr
    rcases List.mem_append.mp hr with hr | hr
    · exact h.queue_held request hr
    · rw [List.mem_singleton.mp hr]
      exact hheld
  · rw [hseen] at hk
    rw [hqueue]
    rcases h.covered k change hk hget with ⟨request, hin, hrest⟩ | hin
    · exact .inl ⟨request, List.mem_append_left _ hin, hrest⟩
    · refine (hunsent change hin).imp ?_ id
      rintro rfl
      refine ⟨told, by simp, hlines, ?_⟩
      have hlt : k < commits.length := (List.getElem?_eq_some_iff.mp hget).1
      have hk1 : change.snapshot.version = k + 1 := by
        rw [← Commits.snapshot_succ hget, hchained.version_eq hlt]
      omega

/-- Steps that leave the queue and what the worker has seen as they are. -/
theorem congr (h : a.Receives commits unsent) (hqueue : b.queue = a.queue)
    (hnewest : b.newest = a.newest) : b.Receives commits unsent := by
  have hseen : b.latestSeen = a.latestSeen := congrArg (·.getD .empty) hnewest
  exact ⟨hseen ▸ h.seen_held, hqueue ▸ h.queue_held, by rw [hseen, hqueue]; exact h.covered⟩

theorem move (h : a.Receives commits unsent) (hmove : WorkerMove a b) :
    b.Receives commits unsent := by
  cases hmove with
  | drain hwaiting hasked =>
    obtain ⟨hmem, hle, hall⟩ := a.latestSeen_drain
    refine ⟨?_, by simp [drain], fun k change hk hget => ?_⟩
    · rcases hmem with hseen | ⟨request, hin, hseen⟩
      · rw [hseen]
        exact h.seen_held
      · rw [hseen]
        exact h.queue_held request hin
    · refine .inr ((h.covered k change (Nat.le_trans hle hk) hget).resolve_left ?_)
      rintro ⟨request, hin, -, hlt⟩
      have := hall request hin
      omega
  | proceed | storePatch | publish | settle => exact h.congr rfl rfl

/-- With no request left and no notice to come, the worker has seen the latest snapshot. -/
theorem latestSeen_eq (h : a.Receives commits ∅) (hqueue : a.queue = []) :
    a.latestSeen = commits.latest := by
  have hversion : a.latestSeen.version = commits.length := by
    refine Nat.le_antisymm h.seen_held.version_le (Nat.le_of_not_lt fun hlt => ?_)
    rcases h.covered _ _ (Nat.le_refl _) (List.getElem?_eq_getElem hlt) with ⟨request, hin, -⟩ | hin
    · rw [hqueue] at hin
      cases hin
    · exact hin
  rw [← h.seen_held.snapshot_eq, hversion, Commits.latest]

end Receives

/-! ### Published results -/

/-- The worker is about to publish the result of a pass that has come to its end. -/
def isPublishing (a : Analyzer) : Bool :=
  match a.phase with
  | .storingResult _ _ => true
  | _ => false

theorem isPublishing_congr (h : b.phase = a.phase) : b.isPublishing = a.isPublishing := by
  rw [isPublishing, isPublishing, h]

theorem isPublishing_of_storing {consumed : Nat} {result : AnalysisResult}
    (h : a.phase = .storingResult consumed result) : a.isPublishing = true := by
  rw [isPublishing, h]

theorem isPublishing_of_underway (h : a.phase.Underway) : a.isPublishing = false := by
  unfold isPublishing
  split
  · rename_i hphase
    rw [hphase] at h
    cases h
  · rfl

theorem latestSeen_congr (h : b.newest = a.newest) :
    b.latestSeen = a.latestSeen :=
  congrArg (·.getD .empty) h

/-- What a move of the worker does to the published result: nothing, or it publishes the newest
snapshot seen. -/
theorem WorkerMove.result (hmove : WorkerMove a b) (hworking : a.Working tokenizer) :
    a.latestSeen.version ≤ b.latestSeen.version ∧
      (b.result = a.result ∧ a.isPublishing = false ∨
        b.result.version = a.result.version + 1 ∧ a.isPublishing = true ∧
          b.result.snapshotVersion = a.latestSeen.version) := by
  cases hmove with
  | drain hwaiting hasked =>
    exact ⟨a.latestSeen_drain.2.1, .inl ⟨rfl, by rw [isPublishing, hwaiting]⟩⟩
  | proceed phase hunderway =>
    exact ⟨Nat.le_refl _, .inl ⟨rfl, isPublishing_of_underway hunderway⟩⟩
  | storePatch consumed result patch hstoring =>
    exact ⟨Nat.le_refl _, .inl ⟨rfl, by rw [isPublishing, hstoring]⟩⟩
  | publish consumed result hstoring =>
    obtain ⟨done, hdone, rfl, -⟩ := hworking.of_storing hstoring
    exact ⟨Nat.le_refl _, .inr ⟨hdone.version_eq, by rw [isPublishing, hstoring],
      hdone.snapshotVersion_eq⟩⟩
  | settle consumed hsettling =>
    exact ⟨Nat.le_refl _, .inl ⟨rfl, by rw [isPublishing, hsettling]⟩⟩

theorem WorkerMove.not_publishing (hmove : WorkerMove a b) (hworking : a.Working tokenizer)
    (hsame : b.result = a.result) : a.isPublishing = false := by
  obtain ⟨-, ⟨-, hnot⟩ | ⟨hversion, -, -⟩⟩ := hmove.result hworking
  · exact hnot
  · rw [hsame] at hversion
    omega

/-- What a step of the worker does to the pending patch and the published result: nothing, or one of
the two things at the end of a pass. -/
inductive Publishes (tokenizer : Tokenizer) (a b : Analyzer) : Prop
  | quiet (storing : ∀ consumed result patch, a.phase ≠ .storingPatch consumed result patch)
      (before : a.isPublishing = false) (after : b.isPublishing = false)
      (patch_eq : b.patch = a.patch) (result_eq : b.result = a.result)
  | store (consumed : Nat) (done : Pass) (completes : a.Completes tokenizer done)
      (before : a.phase = .storingPatch consumed done.result done.patch)
      (after : b.phase = .storingResult consumed done.result)
      (patch_eq : b.patch = some done.patch) (result_eq : b.result = a.result)
  | publish (consumed : Nat) (done : Pass) (completes : a.Completes tokenizer done)
      (before : a.phase = .storingResult consumed done.result)
      (after : b.phase = .settling consumed)
      (patch_eq : b.patch = a.patch) (result_eq : b.result = done.result)

theorem Working.publishes (h : a.Working tokenizer) (hstep : a.workerStep tokenizer = some b) :
    Publishes tokenizer a b := by
  obtain ⟨hmove, -⟩ := h.step hstep
  have hnot := hmove.not_publishing h
  cases hmove with
  | drain hwaiting hasked =>
    refine .quiet (fun _ _ _ hphase => ?_) (hnot rfl) rfl rfl rfl
    cases hwaiting.symm.trans hphase
  | proceed phase hunderway hconsumed hflag hnext =>
    refine .quiet (fun _ _ _ hphase => ?_) (hnot rfl) ?_ rfl rfl
    · rw [hphase] at hunderway
      cases hunderway
    · rcases hnext with hunder | ⟨_, _, _, rfl⟩ | ⟨rfl, -⟩
      · exact isPublishing_of_underway hunder
      · rfl
      · rfl
  | storePatch consumed result patch hstoring =>
    obtain ⟨done, hdone, rfl, rfl⟩ : ∃ done, a.Completes tokenizer done ∧
        result = done.result ∧ patch = done.patch := by
      simpa only [Working, hstoring] using h
    exact .store consumed done hdone hstoring rfl rfl rfl
  | publish consumed result hstoring =>
    obtain ⟨done, hdone, rfl, -⟩ := h.of_storing hstoring
    exact .publish consumed done hdone hstoring rfl rfl rfl
  | settle consumed hsettling =>
    refine .quiet (fun _ _ _ hphase => ?_) (hnot rfl) rfl rfl rfl
    cases hsettling.symm.trans hphase

end Analyzer

end LineTokens
