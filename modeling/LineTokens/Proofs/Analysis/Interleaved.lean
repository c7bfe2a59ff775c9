import LineTokens.Analysis.Concurrent
import LineTokens.Proofs.Analysis.Exact
import LineTokens.Proofs.Buffer.Interleaving

/-! Writers, worker and client in any interleaving, at a buffer that was empty when the analyzer was
attached to it. Each of their steps is a step of the relay or leaves it as it is, so what holds of
every relay holds in every state that an interleaving leads to. -/

namespace LineTokens

namespace Writers

/-- What the writers have committed and told. -/
def relay (s : Writers Analyzer NoticeStage) : Relay := ⟨s.commits, s.unsent, s.stage?, s.observed⟩

/-- The snapshots that a buffer which was empty at first has held, in order. -/
def snapshots {ω σ : Type} (s : Writers ω σ) : List Snapshot :=
  .empty :: s.commits.map Change.snapshot

/-- No writer is between a commit and the end of its notice. -/
def allTold {ω σ : Type} (s : Writers ω σ) : Bool := s.writers.all (·.phase.unsent?.isNone)

variable {tokenizer : Tokenizer} {s t : Writers Analyzer NoticeStage}

theorem Effect.relay (h : Effect Analyzer.observers s t) :
    t.relay = s.relay ∨ Relay.Step tokenizer (s.writers.length ≤ 1) s.relay t.relay := by
  unfold Writers.relay
  cases h with
  | silent hcommits hunsent hstage hobserved =>
    exact .inl (by rw [hcommits, hunsent, hstage, hobserved])
  | commit batch change happly hcommits hunsent hstage hobserved =>
    rw [hcommits, hunsent, hstage, hobserved]
    exact .inr (.commit batch change happly)
  | begin first hfirst hcommits hunsent hbefore hafter hobserved =>
    obtain rfl : NoticeStage.install = first := Option.some.inj hfirst
    rw [hcommits, hunsent, hafter, hobserved]
    exact .inr (.begin hbefore)
  | tell own told stage hannounces hown hcommits hbefore hobserved hafter hgoesOn hends =>
    rw [hcommits, hobserved, hafter]
    refine .inr ?_
    cases hnext : (Analyzer.observers.call told stage s.observed).2 with
    | some next =>
      rw [hgoesOn (by rw [hnext]; simp)]
      exact .notice told stage next hbefore hnext
    | none =>
      obtain rfl : stage = .send := by
        cases stage with
        | send => rfl
        | install | cancel | submit => cases hnext
      obtain ⟨hsent, hsubset, hsolo⟩ := hends hnext
      exact .send own told t.unsent hbefore hannounces.held hannounces.lines_eq
        hannounces.version_le hsent hsubset hsolo

/-- A step of a writer changes nothing that the worker has published. -/
theorem Effect.result_eq (h : Effect Analyzer.observers s t) :
    t.observed.result = s.observed.result := by
  cases h with
  | silent _ _ _ hobserved | commit _ _ _ _ _ _ hobserved | begin _ _ _ _ _ _ hobserved =>
    rw [hobserved]
  | tell own told stage _ _ _ _ hobserved =>
    rw [hobserved]
    cases stage <;> rfl

/-- Nor does it move the worker. -/
theorem Effect.phase_eq (h : Effect Analyzer.observers s t) :
    t.observed.phase = s.observed.phase := by
  cases h with
  | silent _ _ _ hobserved | commit _ _ _ _ _ _ hobserved | begin _ _ _ _ _ _ hobserved =>
    rw [hobserved]
  | tell own told stage _ _ _ _ hobserved =>
    rw [hobserved]
    cases stage <;> rfl

/-- A step sets one writer. Unless that is telling the observers, they do not notice. -/
theorem step_cases {ω σ : Type} {obs : Observers ω σ} {s t : Writers ω σ} {i : Nat}
    (h : s.step obs i = some t) :
    ∃ w w', s.writers[i]? = some w ∧ t.writers = s.writers.set i w' ∧
      (w.phase.stage? = none ∧ t.observed = s.observed ∨
        ∃ own told stage, w.phase = .telling own told stage ∧
          t = s.tell obs i w own told stage) := by
  unfold step at h
  split at h
  · cases h
  · rename_i w hw
    split at h
    · rename_i hphase _
      cases h
      exact ⟨w, _, hw, rfl, .inl ⟨by rw [hphase]; rfl, rfl⟩⟩
    · rename_i hphase _
      cases h
      unfold build
      split <;> exact ⟨w, _, hw, rfl, .inl ⟨by rw [hphase]; rfl, rfl⟩⟩
    · rename_i hphase _
      cases h
      unfold store
      split <;> exact ⟨w, _, hw, rfl, .inl ⟨by rw [hphase]; rfl, rfl⟩⟩
    · rename_i hphase
      unfold acquire at h
      split at h
      · cases h
        exact ⟨w, _, hw, rfl, .inl ⟨by rw [hphase]; rfl, rfl⟩⟩
      · split at h
        · cases h
        · cases h
          exact ⟨w, _, hw, rfl, .inl ⟨by rw [hphase]; rfl, rfl⟩⟩
    · rename_i hphase
      cases h
      unfold load
      split <;> exact ⟨w, _, hw, rfl, .inl ⟨by rw [hphase]; rfl, rfl⟩⟩
    · rename_i own told stage hphase
      cases h
      exact ⟨w, _, hw, rfl, .inr ⟨own, told, stage, hphase, rfl⟩⟩
    · rename_i hphase
      cases h
      exact ⟨w, _, hw, rfl, .inl ⟨by rw [hphase]; rfl, rfl⟩⟩
    · cases h

theorem length_step {ω σ : Type} {obs : Observers ω σ} {s t : Writers ω σ} {i : Nat}
    (h : s.step obs i = some t) : t.writers.length = s.writers.length := by
  obtain ⟨w, w', -, ht, -⟩ := step_cases h
  rw [ht]
  exact List.length_set

theorem unsent_eq_empty {ω σ : Type} {s : Writers ω σ} (h : s.allTold = true) : s.unsent = ∅ := by
  refine Set.eq_empty_iff_forall_notMem.mpr ?_
  rintro own ⟨i, w, hw, hown⟩
  have hnone := List.all_eq_true.mp h w (List.mem_of_getElem? hw)
  rw [hown] at hnone
  cases hnone

theorem stage?_eq_none {ω σ : Type} {s : Writers ω σ} (h : s.allTold = true) : s.stage? = none := by
  unfold stage?
  cases s.lock with
  | none => rfl
  | some i =>
    cases hw : s.writers[i]? with
    | none => rw [Option.bind_some, hw, Option.bind_none]
    | some w =>
      have hnone := List.all_eq_true.mp h w (List.mem_of_getElem? hw)
      rw [Option.bind_some, hw, Option.bind_some]
      cases hphase : w.phase with
      | telling own told stage =>
        rw [hphase] at hnone
        cases hnone
      | idle | loaded | built | committed | locked | releasing => rfl

theorem mem_snapshots_iff {ω σ : Type} {s : Writers ω σ} (h : s.Orderly) {snapshot : Snapshot} :
    snapshot ∈ s.snapshots ↔ s.commits.Held snapshot := by
  constructor
  · intro hmem
    rcases List.mem_cons.mp hmem with rfl | hmem
    · exact .empty
    · obtain ⟨change, hchange, rfl⟩ := List.mem_map.mp hmem
      obtain ⟨k, -, hget⟩ := h.chained.getElem?_of_mem hchange
      rw [← Commits.snapshot_succ hget]
      exact h.chained.held (List.getElem?_eq_some_iff.mp hget).1
  · intro hheld
    have hle := hheld.version_le
    rw [← hheld.snapshot_eq]
    cases hversion : snapshot.version with
    | zero => exact List.mem_cons_self
    | succ k =>
      rw [hversion] at hle
      have hget : s.commits[k]? = some s.commits[k] := List.getElem?_eq_getElem hle
      rw [Commits.snapshot_succ hget]
      exact List.mem_cons_of_mem _ (List.mem_map_of_mem (List.getElem_mem hle))

end Writers

namespace Concurrent

variable {tokenizer : Tokenizer} {c d first : Concurrent} {actor : Actor} {passes : Nat}

/-- Passes that a step publishes the result of: one, if it is the worker's and a pass has come to
its end. -/
def publishes (c : Concurrent) : Actor → Nat
  | .worker => if c.analyzer.isPublishing then 1 else 0
  | .writer _ | .client => 0

/-- The states that some interleaving leads to, with the number of passes completed on the way. -/
inductive Runs (tokenizer : Tokenizer) (first : Concurrent) : Nat → Concurrent → Prop
  | start : Runs tokenizer first 0 first
  | step {passes : Nat} {c d : Concurrent} (actor : Actor) (ran : Runs tokenizer first passes c)
      (stepped : c.step tokenizer actor = some d) :
      Runs tokenizer first (passes + c.publishes actor) d

theorem reachable_iff_runs :
    Reachable tokenizer first c ↔ ∃ passes, Runs tokenizer first passes c := by
  constructor
  · intro h
    induction h with
    | start => exact ⟨0, .start⟩
    | step actor _ hstep ih =>
      obtain ⟨passes, hran⟩ := ih
      exact ⟨_, hran.step actor hstep⟩
  · rintro ⟨passes, h⟩
    induction h with
    | start => exact .start
    | step actor _ hstep ih => exact ih.step actor hstep

theorem Reachable.round (h : Reachable tokenizer first c) :
    Reachable tokenizer first (c.round tokenizer) := by
  have hwriters : ∀ (indices : List Nat) (s : Writers Analyzer NoticeStage),
      Reachable tokenizer first ⟨s, c.client, c.taken⟩ → Reachable tokenizer first
        ⟨indices.foldl (fun s i => (s.step Analyzer.observers i).getD s) s, c.client, c.taken⟩ := by
    intro indices
    induction indices with
    | nil => exact fun _ hs => hs
    | cons i rest ih =>
      intro s hs
      rw [List.foldl_cons]
      cases ht : s.step Analyzer.observers i with
      | none => exact ih s hs
      | some t => exact ih t (hs.step (.writer i) (by rw [Concurrent.step, ht]; rfl))
  have hround : Reachable tokenizer first ⟨c.writers.round Analyzer.observers, c.client, c.taken⟩ :=
    hwriters (List.range c.writers.writers.length) c.writers h
  unfold Concurrent.round
  dsimp only
  cases hstep : Concurrent.step tokenizer ⟨c.writers.round Analyzer.observers, c.client, c.taken⟩
      .worker with
  | none => exact hround
  | some d => exact hround.step .worker hstep

/-- Turns are one of the interleavings. -/
theorem Reachable.runRounds (rounds : Nat) (h : Reachable tokenizer first c) :
    Reachable tokenizer first (c.runRounds tokenizer rounds) := by
  induction rounds generalizing c with
  | zero => exact h
  | succ rounds ih =>
    unfold Concurrent.runRounds
    split
    · exact h
    · exact ih h.round

/-- What holds after `passes` completed passes, in any interleaving. -/
structure Proper (tokenizer : Tokenizer) (passes : Nat) (c : Concurrent) : Prop where
  orderly : c.writers.Orderly
  sound : c.writers.relay.Sound tokenizer
  catching : c.writers.relay.Catching tokenizer
  exact : c.writers.writers.length ≤ 1 → c.writers.relay.Exact tokenizer
  version_eq : c.analyzer.result.version = passes

/-- A step that is one of the relay, or leaves the relay as it is. -/
theorem Proper.of_relay (h : c.Proper tokenizer passes) (horderly : d.writers.Orderly)
    (hlength : d.writers.writers.length = c.writers.writers.length)
    (hrelay : d.writers.relay = c.writers.relay ∨
      Relay.Step tokenizer (c.writers.writers.length ≤ 1) c.writers.relay d.writers.relay)
    {more : Nat} (hversion : d.analyzer.result.version = c.analyzer.result.version + more) :
    d.Proper tokenizer (passes + more) ∧ c.writers.relay.Grows d.writers.relay := by
  have hversion' : d.analyzer.result.version = passes + more := by rw [hversion, h.version_eq]
  rcases hrelay with heq | hstep
  · refine ⟨⟨horderly, heq ▸ h.sound, heq ▸ h.catching, fun halone => ?_, hversion'⟩, ?_⟩
    · rw [heq]
      exact h.exact (hlength ▸ halone)
    · rw [heq]
      exact .refl _
  · refine ⟨⟨horderly, h.sound.step hstep, h.catching.step h.sound hstep, fun halone => ?_,
      hversion'⟩, h.sound.grows hstep⟩
    rw [hlength] at halone
    rw [eq_true halone] at hstep
    exact (h.exact halone).step h.sound hstep

theorem writers_clientStep (c : Concurrent) : c.clientStep.writers = c.writers ∨
    c.clientStep.writers = (c.withAnalyzer c.analyzer.swapPatch.1).writers := by
  unfold clientStep
  split
  · split
    · rename_i a patch hswap
      exact .inr (by rw [hswap])
    · rename_i a hswap
      exact .inr (by rw [hswap])
  · exact .inl rfl

theorem effect_step {t : Writers Analyzer NoticeStage} {i : Nat} (h : c.writers.Orderly)
    (ht : c.writers.step Analyzer.observers i = some t) :
    t.Orderly ∧ c.writers.Effect Analyzer.observers t :=
  h.step (by simp [Analyzer.observers]) ht

/-- Whoever makes a step, the writers stay in order, and the step is one of the relay or leaves the
relay as it is. -/
theorem relay_step (h : c.writers.Orderly) (hstep : c.step tokenizer actor = some d) :
    d.writers.Orderly ∧ (d.writers.relay = c.writers.relay ∨
      Relay.Step tokenizer (c.writers.writers.length ≤ 1) c.writers.relay d.writers.relay) := by
  cases actor with
  | writer i =>
    obtain ⟨t, ht, rfl⟩ := Option.map_eq_some_iff.mp hstep
    obtain ⟨horderly, heffect⟩ := effect_step h ht
    exact ⟨horderly, heffect.relay⟩
  | worker =>
    obtain ⟨b, hb, rfl⟩ := Option.map_eq_some_iff.mp hstep
    exact ⟨h.observe b, .inr (.work b hb)⟩
  | client =>
    obtain rfl := Option.some.inj hstep
    rcases c.writers_clientStep with hwriters | hwriters
    · exact ⟨hwriters ▸ h, .inl (by rw [hwriters])⟩
    · rw [hwriters]
      exact ⟨h.observe _, .inr .take⟩

theorem length_step (hstep : c.step tokenizer actor = some d) :
    d.writers.writers.length = c.writers.writers.length := by
  cases actor with
  | writer i =>
    obtain ⟨t, ht, rfl⟩ := Option.map_eq_some_iff.mp hstep
    exact Writers.length_step ht
  | worker =>
    obtain ⟨b, -, rfl⟩ := Option.map_eq_some_iff.mp hstep
    rfl
  | client =>
    obtain rfl := Option.some.inj hstep
    rcases c.writers_clientStep with hwriters | hwriters <;> rw [hwriters]
    rfl

/-- The version counts the passes completed. -/
theorem version_step (h : c.Proper tokenizer passes) (hstep : c.step tokenizer actor = some d) :
    d.analyzer.result.version = c.analyzer.result.version + c.publishes actor := by
  cases actor with
  | writer i =>
    obtain ⟨t, ht, rfl⟩ := Option.map_eq_some_iff.mp hstep
    obtain ⟨-, heffect⟩ := effect_step h.orderly ht
    exact congrArg AnalysisResult.version heffect.result_eq
  | worker =>
    obtain ⟨b, hb, rfl⟩ := Option.map_eq_some_iff.mp hstep
    obtain ⟨hmove, -⟩ := h.sound.working.step hb
    show b.result.version = c.analyzer.result.version + if c.analyzer.isPublishing then 1 else 0
    rcases (hmove.result h.sound.working).2 with ⟨hsame, hnot⟩ | ⟨hversion, hpublishing, -⟩
    · rw [show c.analyzer.isPublishing = false from hnot, hsame]
      rfl
    · rw [show c.analyzer.isPublishing = true from hpublishing, hversion]
      rfl
  | client =>
    obtain rfl := Option.some.inj hstep
    rcases c.writers_clientStep with hwriters | hwriters <;> rw [analyzer, hwriters] <;> rfl

theorem Proper.step (h : c.Proper tokenizer passes) (hstep : c.step tokenizer actor = some d) :
    d.Proper tokenizer (passes + c.publishes actor) ∧ c.writers.relay.Grows d.writers.relay := by
  obtain ⟨horderly, hrelay⟩ := relay_step h.orderly hstep
  exact h.of_relay horderly (length_step hstep) hrelay (version_step h hstep)

theorem relay_start (batches : List (List (List Edit))) :
    (start .empty .start batches).writers.relay = .start := by
  rw [Writers.relay, start, Writers.unsent_start]
  rfl

theorem proper_start (batches : List (List (List Edit))) :
    (start .empty .start batches).Proper tokenizer 0 := by
  refine ⟨Writers.orderly_start _ _, ?_, ?_, fun _ => ?_, rfl⟩
  · rw [relay_start]
    exact Relay.sound_start
  · rw [relay_start]
    exact Relay.catching_start
  · rw [relay_start]
    exact Relay.exact_start

/-! ### Runs -/

theorem Runs.length_eq (h : Runs tokenizer first passes c) :
    c.writers.writers.length = first.writers.writers.length := by
  induction h with
  | start => rfl
  | step actor _ hstep ih => exact (length_step hstep).trans ih

/-- What holds at the start of a run holds after it, and no version goes back on the way. -/
theorem Runs.proper {before : Nat} (h : Runs tokenizer first passes c)
    (hfirst : first.Proper tokenizer before) :
    c.Proper tokenizer (before + passes) ∧ first.writers.relay.Grows c.writers.relay := by
  induction h with
  | start => exact ⟨hfirst, .refl _⟩
  | step actor _ hstep ih =>
    obtain ⟨hproper, hgrows⟩ := ih
    obtain ⟨hnext, hmore⟩ := hproper.step hstep
    exact ⟨Nat.add_assoc .. ▸ hnext, hgrows.trans hmore⟩

theorem proper_of_runs {batches : List (List (List Edit))}
    (h : Runs tokenizer (start .empty .start batches) passes c) : c.Proper tokenizer passes := by
  simpa using (h.proper (proper_start batches)).1

end Concurrent

end LineTokens
