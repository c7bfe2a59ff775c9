import LineTokens.Proofs.Analysis.Gathered

/-! A buffer with a record of what its client does, one call at a time: the changes committed, the
worker's events and the calls of the tokenizer that have been taken. The record does not touch the
buffer. `Faithful` says that it is right, whatever the client does and whenever. -/

namespace LineTokens

/-- A call of the client. -/
inductive ClientAction
  | replace (edits : List Edit)
  | hold
  | release
  | step
  | takePatch
  | takeCalls
deriving DecidableEq

def Analyzer.events (tokenizer : Tokenizer) (gate : Gate) (a : Analyzer) : List PassEvent :=
  a.eventsFor tokenizer gate a.stepsLeft

namespace AnalyzedBuffer

/-- The buffer after a call. Edits that are refused change nothing. -/
def act (tokenizer : Tokenizer) (b : AnalyzedBuffer) : ClientAction → AnalyzedBuffer
  | .replace edits =>
    match b.replace tokenizer edits with
    | .error _ => b
    | .ok (b, _) => b
  | .hold => b.hold
  | .release => b.release tokenizer
  | .step => b.step tokenizer
  | .takePatch => b.takePatch.1
  | .takeCalls => b.takeCalls.1

/-- The change that a call commits. -/
def committed? (tokenizer : Tokenizer) (b : AnalyzedBuffer) : ClientAction → Option Change
  | .replace edits =>
    match b.replace tokenizer edits with
    | .error _ => none
    | .ok (_, change) => change
  | .hold | .release | .step | .takePatch | .takeCalls => none

/-- What the worker does when it is told of a change: nothing while it is stopped in a call. -/
def tellEvents (tokenizer : Tokenizer) (b : AnalyzedBuffer) (change : Change) : List PassEvent :=
  if b.isStopped then [] else (b.analyzer.onChange change).events tokenizer b.gate

/-- What the worker does during a call. -/
def events (tokenizer : Tokenizer) (b : AnalyzedBuffer) : ClientAction → List PassEvent
  | .replace edits => (b.committed? tokenizer (.replace edits)).elim [] (b.tellEvents tokenizer)
  | .release => b.analyzer.events tokenizer .opened
  | .step => if b.isStopped then b.analyzer.events tokenizer .closed else []
  | .hold | .takePatch | .takeCalls => []

/-- The calls of the tokenizer that a call answers. -/
def taken (b : AnalyzedBuffer) : ClientAction → List Call
  | .takeCalls => b.takeCalls.2
  | .replace _ | .hold | .release | .step | .takePatch => []

end AnalyzedBuffer

structure Recording where
  buffer : AnalyzedBuffer
  /-- The changes committed since the buffer was empty. -/
  commits : Commits
  events : List PassEvent
  taken : List Call

namespace Recording

def start (gate : Gate) : Recording := ⟨.start gate, [], [], []⟩

def act (tokenizer : Tokenizer) (r : Recording) (action : ClientAction) : Recording where
  buffer := r.buffer.act tokenizer action
  commits := r.commits ++ (r.buffer.committed? tokenizer action).toList
  events := r.events ++ r.buffer.events tokenizer action
  taken := r.taken ++ r.buffer.taken action

def actAll (tokenizer : Tokenizer) (r : Recording) (actions : List ClientAction) : Recording :=
  actions.foldl (act tokenizer) r

/-- Recording is only watching. -/
theorem buffer_actAll (tokenizer : Tokenizer) (r : Recording) (actions : List ClientAction) :
    (r.actAll tokenizer actions).buffer =
      actions.foldl (AnalyzedBuffer.act tokenizer) r.buffer := by
  induction actions generalizing r with
  | nil => rfl
  | cons action rest ih => exact ih (r.act tokenizer action)

/-- The events recorded fit the commits, the last of the results is published, and the calls are
those that have been taken and those that still can be. -/
structure Faithful (r : Recording) : Prop where
  lawful : PassEvent.Lawful r.commits .empty r.events
  result_eq : r.buffer.analyzer.result = PassEvent.lastPublished .empty r.events
  calls_eq : r.taken ++ r.buffer.calls = r.events.filterMap PassEvent.call?

/-- What holds of a recording also while the worker is still to go on. -/
structure Tracks (tokenizer : Tokenizer) (r : Recording) : Prop extends Faithful r where
  reached : Relay.Run tokenizer .start (r.buffer.relay r.commits)
  current_eq : r.buffer.buffer.current = r.commits.latest
  gathered : r.buffer.analyzer.Gathered r.commits

/-- What holds between calls. -/
structure Stands (tokenizer : Tokenizer) (r : Recording) : Prop extends Tracks tokenizer r where
  rests : r.buffer.analyzer.Rests tokenizer r.buffer.gate

variable {tokenizer : Tokenizer} {r : Recording}

theorem Tracks.follows (h : r.Tracks tokenizer) : r.buffer.analyzer.Follows tokenizer r.commits :=
  h.reached.sound_exact.1

theorem Stands.buffer (h : r.Stands tokenizer) : r.buffer.Stands tokenizer r.commits :=
  ⟨h.reached, h.current_eq, h.rests⟩

theorem stands_start (tokenizer : Tokenizer) (gate : Gate) : (start gate).Stands tokenizer where
  lawful := trivial
  result_eq := rfl
  calls_eq := rfl
  reached := .refl
  current_eq := rfl
  gathered := Analyzer.gathered_start
  rests := .inl rfl

/-- The worker is let go on, with the gate set in any way. -/
theorem Tracks.run (h : r.Tracks tokenizer) (gate : Gate) :
    Stands tokenizer
      { r with
        buffer := { r.buffer with gate }.run tokenizer
        events := r.events ++ r.buffer.analyzer.events tokenizer gate } := by
  obtain ⟨hgathered, hlawful, hresult⟩ :=
    h.gathered.run h.follows gate r.buffer.analyzer.stepsLeft r.buffer.calls
  refine ⟨⟨⟨?_, ?_, ?_⟩, h.reached.trans (AnalyzedBuffer.run_work r.buffer.calls), h.current_eq,
    hgathered⟩, Analyzer.rests_run _ _ _ _⟩
  · exact PassEvent.lawful_append.mpr ⟨h.lawful, h.result_eq ▸ hlawful⟩
  · rw [PassEvent.lastPublished_append, ← h.result_eq]
    exact hresult
  · have hcalls := Analyzer.calls_runFor tokenizer gate r.buffer.analyzer.stepsLeft
      r.buffer.analyzer r.buffer.calls
    rw [List.filterMap_append, ← h.calls_eq, List.append_assoc]
    exact congrArg (r.taken ++ ·) hcalls

/-- A change has been committed, and the analyzer has been told of it. -/
theorem Stands.told (h : r.Stands tokenizer) {edits : List Edit} {change : Change}
    (happly : r.buffer.buffer.current.apply edits = .ok (some change)) :
    Tracks tokenizer
      { r with
        buffer :=
          { r.buffer with
            buffer := { r.buffer.buffer with current := change.snapshot }
            analyzer := r.buffer.analyzer.onChange change }
        commits := r.commits ++ [change] } := by
  rw [h.current_eq] at happly
  exact ⟨⟨h.lawful.append_commits _, h.result_eq, h.calls_eq⟩,
    h.reached.trans (AnalyzedBuffer.run_notice h.follows.chained happly),
    (Commits.latest_concat _ _).symm, h.gathered.onChange h.follows h.rests change⟩

theorem Stands.accept (h : r.Stands tokenizer) {edits : List Edit} {change : Change}
    (happly : r.buffer.buffer.current.apply edits = .ok (some change)) :
    Stands tokenizer
      { r with
        buffer := r.buffer.accept tokenizer change
        commits := r.commits ++ [change]
        events := r.events ++ r.buffer.tellEvents tokenizer change } := by
  have htold := h.told happly
  have hstands := (h.buffer.accept happly).1
  unfold AnalyzedBuffer.accept AnalyzedBuffer.tell at hstands ⊢
  unfold AnalyzedBuffer.tellEvents AnalyzedBuffer.isStopped
  have hcall : (r.buffer.analyzer.onChange change).runningCall? =
      r.buffer.analyzer.runningCall? := rfl
  dsimp only at hstands ⊢
  rw [hcall] at hstands ⊢
  cases hrunning : r.buffer.analyzer.runningCall? with
  | none => exact htold.run r.buffer.gate
  | some call =>
    rw [hrunning] at hstands
    simp only [Option.isSome_some, if_true, List.append_nil]
    exact ⟨htold, hstands.rests⟩

/-- Between calls no result waits to be published, so that a patch can be taken. -/
theorem Stands.takePatch (h : r.Stands tokenizer) :
    Stands tokenizer { r with buffer := r.buffer.takePatch.1 } := by
  obtain ⟨commits, hbuffer, -⟩ := AnalyzedBuffer.later_takePatch _ _ h.buffer
  have hquiet := h.buffer.isPublishing_eq_false
  have hrests := hbuffer.rests
  rw [AnalyzedBuffer.takePatch_eq] at hrests ⊢
  refine ⟨⟨⟨h.lawful, h.result_eq, h.calls_eq⟩, h.reached.tail .take, h.current_eq, ?_⟩, hrests⟩
  refine ⟨h.gathered.queue_eq, h.gathered.carried_iff, h.gathered.flag, h.gathered.undisturbed,
    fun hpublishing => ?_⟩
  rw [show r.buffer.analyzer.swapPatch.1.isPublishing = false from hquiet] at hpublishing
  cases hpublishing

theorem Stands.act (h : r.Stands tokenizer) (action : ClientAction) :
    (r.act tokenizer action).Stands tokenizer := by
  cases action <;> simp only [Recording.act, AnalyzedBuffer.act, AnalyzedBuffer.events,
    AnalyzedBuffer.committed?, AnalyzedBuffer.taken, Option.toList_none, List.append_nil]
  case replace edits =>
    cases happly : r.buffer.buffer.current.apply edits with
    | error error =>
      simp only [AnalyzedBuffer.replace, TextBuffer.replace, happly, Option.toList_none,
        Option.elim_none, List.append_nil]
      exact h
    | ok outcome =>
      cases outcome with
      | none =>
        simp only [AnalyzedBuffer.replace, TextBuffer.replace, happly, Option.toList_none,
          Option.elim_none, List.append_nil]
        exact h
      | some change =>
        simp only [AnalyzedBuffer.replace_of_change happly]
        exact h.accept happly
  case hold =>
    obtain ⟨commits, hbuffer, -⟩ := AnalyzedBuffer.later_hold _ _ h.buffer
    exact ⟨⟨⟨h.lawful, h.result_eq, h.calls_eq⟩, h.reached, h.current_eq, h.gathered⟩,
      hbuffer.rests⟩
  case release => exact h.run .opened
  case step =>
    unfold AnalyzedBuffer.step AnalyzedBuffer.isStopped
    cases hrunning : r.buffer.analyzer.runningCall? with
    | none =>
      simp only [Option.isSome_none, Bool.false_eq_true, if_false, List.append_nil]
      exact h
    | some call => exact h.run .closed
  case takePatch => exact h.takePatch
  case takeCalls =>
    refine ⟨⟨⟨h.lawful, h.result_eq, ?_⟩, h.reached, h.current_eq, h.gathered⟩, h.rests⟩
    exact (List.append_nil _).trans h.calls_eq

theorem Stands.actAll (h : r.Stands tokenizer) (actions : List ClientAction) :
    (r.actAll tokenizer actions).Stands tokenizer := by
  induction actions generalizing r with
  | nil => exact h
  | cons action rest ih => exact ih (h.act action)

end Recording

end LineTokens
