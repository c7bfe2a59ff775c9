import LineTokens.Proofs.Analysis.Recording

/-! Passes that are superseded. A pass whose flag is not tripped runs to its end, and a worker that
waits with requests takes all of them into one pass. So a worker that is let go on when it has been
stopped in a call ends the pass if nothing has been told since, and else makes no more calls for it
and begins one other pass, which comes to its end. -/

namespace LineTokens

/-- The rest of a pass over a snapshot that comes to its end. -/
def PassEvent.completing (snapshot : Snapshot) (calls : List Call) (published : AnalysisResult)
    (patch : Patch) : List PassEvent :=
  calls.map (.called snapshot) ++ [.completed published patch]

namespace Analyzer

variable {tokenizer : Tokenizer} {a b c : Analyzer} {events : List PassEvent}

/-! ### Whole passes -/

/-- The worker goes from one state to another in steps that come to these events. -/
inductive Advances (tokenizer : Tokenizer) : Analyzer → List PassEvent → Analyzer → Prop
  | refl (a : Analyzer) : Advances tokenizer a [] a
  | silent {a b c : Analyzer} {events : List PassEvent} (turn : a.Turn tokenizer none b)
      (rest : Advances tokenizer b events c) : Advances tokenizer a events c
  | visible {a b c : Analyzer} {event : PassEvent} {events : List PassEvent}
      (turn : a.Turn tokenizer (some event) b) (rest : Advances tokenizer b events c) :
      Advances tokenizer a (event :: events) c

/-- One step, and what has been done in the steps after it. -/
theorem runFor_opened_of_turn {event : Option PassEvent} (hturn : a.Turn tokenizer event b)
    {steps : Nat} (hsteps : a.stepsLeft ≤ steps)
    (hrest : ∀ {steps}, b.stepsLeft ≤ steps → ∀ calls,
      (b.runFor tokenizer .opened steps calls).1 = c ∧
        b.eventsFor tokenizer .opened steps = events) (calls : List Call) :
    (a.runFor tokenizer .opened steps calls).1 = c ∧
      a.eventsFor tokenizer .opened steps = event.toList ++ events := by
  obtain ⟨hstep, hevent⟩ := hturn.step_eq
  have hlt := stepsLeft_workerStep_lt hstep
  obtain ⟨steps, rfl⟩ : ∃ n, steps = n + 1 := ⟨steps - 1, by omega⟩
  rw [runFor, eventsFor, hstep, ← hevent]
  dsimp only
  cases b.runningCall? with
  | none =>
    obtain ⟨hstate, hevents⟩ := hrest (by omega : b.stepsLeft ≤ steps) calls
    exact ⟨hstate, congrArg _ hevents⟩
  | some call =>
    obtain ⟨hstate, hevents⟩ := hrest (by omega : b.stepsLeft ≤ steps) (calls ++ [call])
    exact ⟨hstate, congrArg _ hevents⟩

/-- With the gate open, the worker is let go on to where it waits. -/
theorem Advances.runFor_opened (h : Advances tokenizer a events c)
    (hlast : c.workerStep tokenizer = none) {steps : Nat} (hsteps : a.stepsLeft ≤ steps)
    (calls : List Call) : (a.runFor tokenizer .opened steps calls).1 = c ∧
      a.eventsFor tokenizer .opened steps = events := by
  induction h generalizing steps calls with
  | refl a =>
    cases steps with
    | zero => exact ⟨rfl, rfl⟩
    | succ steps =>
      rw [runFor, eventsFor, hlast]
      exact ⟨rfl, rfl⟩
  | silent turn _ ih => exact runFor_opened_of_turn turn hsteps (ih hlast) calls
  | visible turn _ ih => exact runFor_opened_of_turn turn hsteps (ih hlast) calls

/-- The worker waits, and what has been published last is this result with this patch. -/
structure Delivered (queue : List Change) (published : AnalysisResult) (patch : Patch)
    (a : Analyzer) : Prop where
  phase_eq : a.phase = .waiting
  queue_eq : a.queue = queue
  result_eq : a.result = published
  patch_eq : a.patch = some patch

theorem Delivered.workerStep_eq_none {published : AnalysisResult} {patch : Patch}
    (h : a.Delivered [] published patch) : a.workerStep tokenizer = none :=
  workerStep_eq_none_iff.mpr ⟨h.phase_eq, h.queue_eq⟩

/-- A pass comes to its end: its patch is stored, and then its result. -/
theorem advances_storing (tokenizer : Tokenizer) {consumed : Nat} {result : AnalysisResult}
    {patch : Patch} (hphase : a.phase = .storingPatch consumed result patch) :
    ∃ c, Advances tokenizer a [.completed result patch] c ∧ c.Delivered a.queue result patch :=
  ⟨_, .silent (.storePatch consumed result patch hphase)
    (.visible (.publish consumed result rfl) (.silent (.settle consumed rfl) (.refl _))),
    ⟨rfl, rfl, rfl, rfl⟩⟩

/-- A pass whose flag is not tripped looks at all lines left and publishes its result. -/
theorem advances_checking (tokenizer : Tokenizer) {pass : Pass} (hphase : a.phase = .checking pass)
    (huntripped : a.flags.isTripped pass.flag = false) :
    ∃ calls c, Advances tokenizer a (PassEvent.completing pass.snapshot calls
        (pass.finish tokenizer).result (pass.finish tokenizer).patch) c ∧
      c.Delivered a.queue (pass.finish tokenizer).result (pass.finish tokenizer).patch := by
  generalize hleft : pass.left = lines
  induction lines generalizing a pass with
  | nil =>
    rw [Pass.finish_of_nil hleft]
    obtain ⟨c, hadvances, hdelivered⟩ := advances_storing tokenizer
      (a := { a with phase := .storingPatch pass.consumed pass.result pass.patch }) rfl
    exact ⟨[], c, .silent (.finish pass hphase huntripped hleft) hadvances, hdelivered⟩
  | cons line left ih =>
    cases hline : pass.snapshot.line? line with
    | none =>
      rw [Pass.finish_of_missing hleft hline]
      obtain ⟨calls, c, hadvances, hdelivered⟩ :=
        ih (a := { a with phase := .checking { pass with left } }) rfl huntripped rfl
      exact ⟨calls, c, .silent (.skip pass line left hphase huntripped hleft hline) hadvances,
        hdelivered⟩
    | some text =>
      rw [Pass.finish_of_present hleft hline]
      obtain ⟨calls, c, hadvances, hdelivered⟩ :=
        ih (a := { a with phase := .checking (Pass.enter { pass with left } line
          (tokenizer line text)) }) rfl huntripped rfl
      exact ⟨⟨line, text⟩ :: calls, c,
        .visible (.call pass line left text hphase huntripped hleft hline)
          (.silent (.enter _ line text rfl) hadvances), hdelivered⟩

/-- A worker that waits with requests takes all of them into one pass, which comes to its end. -/
theorem advances_pass (tokenizer : Tokenizer) (hphase : a.phase = .waiting)
    (hasked : a.queue ≠ []) (huntripped : a.flags.isTripped a.activeFlag = false) :
    let done := a.result.complete tokenizer a.drain.latestSeen a.drain.carried a.queue.length
      a.activeFlag
    ∃ calls c, Advances tokenizer a (.began a.drain.latestSeen ::
        PassEvent.completing a.drain.latestSeen calls done.result done.patch) c ∧
      c.Delivered [] done.result done.patch := by
  intro done
  obtain ⟨snapshot, hnewest⟩ := Option.ne_none_iff_exists'.mp (newest_drain_ne_none hasked)
  have hseen : a.drain.latestSeen = snapshot := by rw [latestSeen, hnewest]; rfl
  let pass := Pass.start a.queue.length a.activeFlag a.drain.latestSeen a.result a.drain.carried
  obtain ⟨calls, c, hadvances, hdelivered⟩ := advances_checking tokenizer
    (a := { a.drain with phase := .checking pass }) rfl huntripped
  exact ⟨calls, c, .silent (.drain hphase hasked) (.silent (.load a.queue.length rfl)
    (.visible (.begin a.queue.length a.activeFlag _ rfl (hseen ▸ hnewest)) hadvances)), hdelivered⟩

theorem advances_waiting (tokenizer : Tokenizer) (hphase : a.phase = .waiting)
    (hasked : a.queue ≠ []) (huntripped : a.flags.isTripped a.activeFlag = false) :
    ∃ calls published patch c, Advances tokenizer a (.began a.drain.latestSeen ::
        PassEvent.completing a.drain.latestSeen calls published patch) c ∧
      c.Delivered [] published patch ∧ published.version = a.result.version + 1 := by
  obtain ⟨calls, c, hadvances, hdelivered⟩ := advances_pass tokenizer hphase hasked huntripped
  exact ⟨calls, _, _, c, hadvances, hdelivered, AnalysisResult.version_complete⟩

/-- A superseded pass ends without a result, and without another call. -/
theorem Advances.superseded {pass : Pass} (hphase : a.phase = .checking pass)
    (htripped : a.flags.isTripped pass.flag = true)
    (h : Advances tokenizer { a with settled := a.settled + pass.consumed, phase := .waiting }
      events c) : Advances tokenizer a (.superseded :: events) c :=
  .visible (.supersede pass hphase htripped) (.silent (.settle pass.consumed rfl) h)

/-! ### A worker that has been stopped -/

namespace Gathered

variable {commits : Commits} {pass : Pass} {line : Nat} {text : List Char}

/-- The pass under way works on the newest snapshot seen, and it is superseded if, and only if,
something has been committed since. -/
theorem isTripped_iff (h : a.Gathered commits) (hsound : a.Follows tokenizer commits)
    (hphase : a.phase = .calling pass line text) :
    (pass.snapshot = a.latestSeen ∧ pass.base = a.result) ∧
      (a.flags.isTripped pass.flag = true ↔ a.queue ≠ []) ∧
      (a.flags.isTripped pass.flag = true ↔ pass.snapshot.version < commits.length) := by
  have hworking : a.Working tokenizer := hsound.working
  rw [Working, hphase] at hworking
  have hpass : pass.snapshot = a.latestSeen ∧ pass.base = a.result := hworking.of_finish
  have hqueue : a.flags.isTripped pass.flag = true ↔ a.queue ≠ [] := by
    rcases h.flag pass.flag (by rw [hphase]; rfl) with ⟨hempty, hactive⟩ | ⟨hasked, htripped⟩
    · have huntripped : a.flags.isTripped a.activeFlag = false := hsound.attentive.untripped
      rw [hactive, huntripped]
      simp [hempty]
    · exact iff_of_true htripped hasked
  refine ⟨hpass, hqueue, hqueue.trans ?_⟩
  rw [hpass.1, h.queue_eq, ne_eq, List.drop_eq_nil_iff, Nat.not_le]

/-- Let go on for good, a worker that has been stopped in a call ends its pass if that has not been
superseded. -/
theorem advances_kept (h : a.Gathered commits) (hsound : a.Follows tokenizer commits)
    (hphase : a.phase = .calling pass line text) (hkept : a.flags.isTripped pass.flag = false) :
    ∃ calls published patch c,
      Advances tokenizer a (PassEvent.completing commits.latest calls published patch) c ∧
      c.Delivered [] published patch ∧ published.version = a.result.version + 1 := by
  obtain ⟨⟨hsnapshot, hbase⟩, hqueue, -⟩ := h.isTripped_iff hsound hphase
  have hempty : a.queue = [] := by
    by_contra hasked
    rw [hqueue.mpr hasked] at hkept
    cases hkept
  have hlatest : pass.snapshot = commits.latest :=
    hsnapshot.trans (hsound.receives.latestSeen_eq hempty)
  let entered := pass.enter line (tokenizer line text)
  obtain ⟨calls, c, hadvances, hdelivered⟩ := advances_checking tokenizer
    (a := { a with phase := .checking entered }) rfl hkept
  rw [show entered.snapshot = commits.latest from hlatest] at hadvances
  refine ⟨calls, _, _, c, .silent (.enter pass line text hphase) hadvances, hempty ▸ hdelivered,
    ?_⟩
  rw [← hbase]
  exact congrArg (·.version + 1) entered.finish_eq.1

/-- One that has been superseded is followed by one other pass, on the latest snapshot. -/
theorem advances_superseded (h : a.Gathered commits) (hsound : a.Follows tokenizer commits)
    (hphase : a.phase = .calling pass line text) (htripped : a.flags.isTripped pass.flag = true) :
    ∃ calls published patch c,
      Advances tokenizer a (.superseded :: .began commits.latest ::
        PassEvent.completing commits.latest calls published patch) c ∧
      c.Delivered [] published patch ∧ published.version = a.result.version + 1 := by
  have hasked : a.queue ≠ [] := (h.isTripped_iff hsound hphase).2.1.mp htripped
  let settled := { a with settled := a.settled + pass.consumed, phase := .waiting }
  have hlatest : settled.drain.latestSeen = commits.latest := by
    have hreceives : settled.Receives commits ∅ := hsound.receives.congr rfl rfl
    exact (hreceives.move (.drain rfl hasked)).latestSeen_eq rfl
  obtain ⟨calls, published, patch, c, hadvances, hdelivered, hversion⟩ :=
    advances_waiting tokenizer (a := settled) rfl hasked hsound.attentive.untripped
  rw [hlatest] at hadvances
  exact ⟨calls, published, patch, c,
    .silent (.enter pass line text hphase) (.superseded rfl htripped hadvances), hdelivered,
    hversion⟩

end Gathered

end Analyzer

theorem AnalyzedBuffer.exists_calling_of_isStopped {b : AnalyzedBuffer}
    (h : b.isStopped = true) : ∃ pass line text, b.analyzer.phase = .calling pass line text := by
  unfold isStopped Analyzer.runningCall? at h
  split at h
  · rename_i pass line text hphase
    exact ⟨pass, line, text, hphase⟩
  · cases h

namespace Recording

variable {tokenizer : Tokenizer} {r : Recording}

/-! ### Releases -/

/-- A release takes the worker to where its steps lead. -/
theorem release_of_advances {c : Analyzer} {events : List PassEvent}
    (h : r.buffer.analyzer.Advances tokenizer events c) (hlast : c.workerStep tokenizer = none) :
    (r.act tokenizer .release).buffer.analyzer = c ∧
      r.buffer.events tokenizer .release = events :=
  h.runFor_opened hlast le_rfl r.buffer.calls

/-- After a release, the analyzer is idle and nothing is left over. -/
theorem Stands.release (h : r.Stands tokenizer) :
    let after := (r.act tokenizer .release).buffer.analyzer
    after.isIdle = true ∧ after.carried = .empty ∧ after.queue = [] ∧
      after.result.snapshotVersion = r.commits.length := by
  have hafter := h.act .release
  have hidle := hafter.buffer.idle rfl
  obtain ⟨hcarried, hqueue, hversion⟩ := hafter.follows.settled rfl rfl hidle
  have hcommits : (r.act tokenizer .release).commits = r.commits := List.append_nil _
  rw [hcommits] at hversion
  exact ⟨hidle, hcarried, hqueue, hversion⟩

/-- A worker that has not been stopped has nothing to do. -/
theorem Stands.release_of_not_stopped (h : r.Stands tokenizer)
    (hstopped : r.buffer.isStopped = false) :
    (r.act tokenizer .release).buffer.analyzer = r.buffer.analyzer ∧
      r.buffer.events tokenizer .release = [] := by
  have hnone : r.buffer.analyzer.workerStep tokenizer = none := by
    refine h.rests.resolve_right ?_
    rintro ⟨-, hrunning⟩
    rw [show r.buffer.analyzer.runningCall?.isSome = false from hstopped] at hrunning
    cases hrunning
  exact release_of_advances (.refl _) hnone

/-- A stopped pass comes to its end if it has not been superseded, and else one other pass does. -/
theorem Stands.release_of_stopped (h : r.Stands tokenizer) {pass : Pass} {line : Nat}
    {text : List Char} (hphase : r.buffer.analyzer.phase = .calling pass line text) :
    ∃ calls published patch,
      r.buffer.events tokenizer .release =
        (if r.buffer.analyzer.flags.isTripped pass.flag then
          [.superseded, .began r.buffer.buffer.current] else []) ++
          PassEvent.completing r.buffer.buffer.current calls published patch ∧
      (r.act tokenizer .release).buffer.analyzer.Delivered [] published patch ∧
      published.version = r.buffer.analyzer.result.version + 1 := by
  rw [h.current_eq]
  obtain ⟨calls, published, patch, c, hadvances, hdelivered, hversion⟩ :
      ∃ calls published patch c, r.buffer.analyzer.Advances tokenizer
          ((if r.buffer.analyzer.flags.isTripped pass.flag then
            [.superseded, .began r.commits.latest] else []) ++
            PassEvent.completing r.commits.latest calls published patch) c ∧
        c.Delivered [] published patch ∧
        published.version = r.buffer.analyzer.result.version + 1 := by
    cases htripped : r.buffer.analyzer.flags.isTripped pass.flag with
    | false => exact h.gathered.advances_kept h.follows hphase htripped
    | true => exact h.gathered.advances_superseded h.follows hphase htripped
  obtain ⟨hafter, hevents⟩ := release_of_advances hadvances hdelivered.workerStep_eq_none
  exact ⟨calls, published, patch, hevents, hafter ▸ hdelivered, hversion⟩

/-- Whatever a client has done, one call at a time: the events of the worker have fitted the
commits, and once it is released it is idle, with nothing left over, every line ever changed has
come in the patch of a completed pass, and the version has grown by one if a call was stopped, and
else not at all. The stopped pass has come to its end if nothing had been committed since its
snapshot; else it has made no more calls, and one other pass has come to its end. -/
theorem release_merges (tokenizer : Tokenizer) (gate : Gate) (actions : List ClientAction) :
    let r := (start gate).actAll tokenizer actions
    let after := r.act tokenizer .release
    let events := r.buffer.events tokenizer .release
    (r.buffer = actions.foldl (AnalyzedBuffer.act tokenizer) (.start gate) ∧ r.Faithful ∧
        after.Faithful) ∧
      (after.buffer.analyzer.isIdle = true ∧ after.buffer.analyzer.carried = .empty ∧
        after.buffer.analyzer.queue = [] ∧
        after.buffer.analyzer.result.snapshotVersion = r.commits.length) ∧
      (∀ k change, r.commits[k]? = some change → ∃ published patch,
        .completed published patch ∈ after.events ∧ k < published.snapshotVersion ∧
          ∀ line ∈ change.changedLines, line ∈ patch.entries.map (·.line)) ∧
      (r.buffer.isStopped = false → events = [] ∧
        after.buffer.analyzer.result.version = r.buffer.analyzer.result.version) ∧
      (r.buffer.isStopped = true → ∃ pass line text,
        r.buffer.analyzer.phase = .calling pass line text ∧
        (r.buffer.analyzer.flags.isTripped pass.flag = true ↔
          pass.snapshot.version < r.commits.length) ∧
        ∃ calls published patch,
          events = (if r.buffer.analyzer.flags.isTripped pass.flag then
            [.superseded, .began r.buffer.buffer.current] else []) ++
            PassEvent.completing r.buffer.buffer.current calls published patch ∧
          after.buffer.analyzer.Delivered [] published patch ∧
          published.version = r.buffer.analyzer.result.version + 1) := by
  intro r after events
  have h : r.Stands tokenizer := (stands_start tokenizer gate).actAll actions
  have hafter : after.Stands tokenizer := h.act .release
  have hreleased := h.release
  refine ⟨⟨buffer_actAll tokenizer (start gate) actions, h.toFaithful, hafter.toFaithful⟩,
    hreleased, fun k change hk => ?_, fun hstopped => ?_, fun hstopped => ?_⟩
  · have hcommits : after.commits = r.commits := List.append_nil _
    refine hafter.lawful.exists_completed (hcommits ▸ hk) (Nat.zero_le k) ?_
    rw [← hafter.result_eq, show after.buffer.analyzer.result.snapshotVersion = _ from
      hreleased.2.2.2]
    exact (List.getElem?_eq_some_iff.mp hk).1
  · obtain ⟨hsame, hevents⟩ := h.release_of_not_stopped hstopped
    exact ⟨hevents, congrArg (·.result.version) hsame⟩
  · obtain ⟨pass, line, text, hphase⟩ := AnalyzedBuffer.exists_calling_of_isStopped hstopped
    exact ⟨pass, line, text, hphase, (h.gathered.isTripped_iff h.follows hphase).2.2,
      h.release_of_stopped hphase⟩

/-- A second line is appended while the worker is stopped in the call for the first one. -/
theorem release_merges_second_line :
    let r := (start .closed).actAll .firstBang
      [.replace [.insertLine 0 ['a', '!']], .replace [.insertLine 1 ['b', '!']]]
    r.buffer.isStopped = true ∧ ∃ pass line text calls published patch,
      r.buffer.analyzer.phase = .calling pass line text ∧
      pass.snapshot.version < r.commits.length ∧
      r.buffer.events .firstBang .release =
        .superseded :: .began r.buffer.buffer.current ::
          PassEvent.completing r.buffer.buffer.current calls published patch ∧
      published.version = 1 ∧ published.snapshotVersion = 2 ∧
      patch = (r.act .firstBang .release).buffer.takePatch.2 := by
  intro r
  have hstopped : r.buffer.isStopped = true := by decide +kernel
  have htripped : r.buffer.analyzer.phase.flag?.map r.buffer.analyzer.flags.isTripped =
      some true := by decide +kernel
  obtain ⟨-, ⟨-, -, -, hsnapshot⟩, -, -, hreleased⟩ :=
    release_merges .firstBang .closed
      [.replace [.insertLine 0 ['a', '!']], .replace [.insertLine 1 ['b', '!']]]
  obtain ⟨pass, line, text, hphase, hnewer, calls, published, patch, hevents, hdelivered,
    hversion⟩ := hreleased hstopped
  have hsuperseded : r.buffer.analyzer.flags.isTripped pass.flag = true := by
    rw [show r.buffer.analyzer.phase = .calling pass line text from hphase] at htripped
    exact Option.some.inj htripped
  refine ⟨hstopped, pass, line, text, calls, published, patch, hphase, hnewer.mp hsuperseded, ?_,
    hversion, hdelivered.result_eq ▸ hsnapshot, ?_⟩
  · refine hevents.trans ?_
    rw [show r.buffer.analyzer.flags.isTripped pass.flag = true from hsuperseded, if_pos rfl]
    rfl
  · rw [AnalyzedBuffer.takePatch_eq, hdelivered.patch_eq]
    rfl

end Recording

end LineTokens
