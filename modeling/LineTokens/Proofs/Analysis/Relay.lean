import LineTokens.Proofs.Analysis.Requests

/-! A buffer's commits on their way to its analyzer. A relay is what matters of a buffer with one
analyzer, whoever makes the steps: what has been committed, what the analyzer has still to be told
of, and the analyzer itself. `Step` lists the steps, in any order that the stages of a notice
allow. -/

namespace LineTokens

structure Relay where
  commits : Commits
  /-- The commits of which the analyzer has not been told to the end. -/
  unsent : Set Change
  /-- The stage in which the analyzer is being told of one of them. -/
  stage : Option NoticeStage
  analyzer : Analyzer

namespace Relay

def start : Relay := ⟨[], ∅, none, .start⟩

/-- One step. When the request for `own` is sent, what it tells names the lines of `own` and a
snapshot that is not older; `alone` says that no other commit is unsent then. -/
inductive Step (tokenizer : Tokenizer) (alone : Prop) (x : Relay) : Relay → Prop
  | commit (batch : List Edit) (change : Change)
      (applied : x.commits.latest.apply batch = .ok (some change)) :
      Step tokenizer alone x
        { x with commits := x.commits ++ [change], unsent := insert change x.unsent }
  | begin (untold : x.stage = none) : Step tokenizer alone x { x with stage := some .install }
  | notice (told : Change) (stage next : NoticeStage) (stage_eq : x.stage = some stage)
      (next_eq : (Analyzer.notice told stage x.analyzer).2 = some next) :
      Step tokenizer alone x
        { x with stage := some next, analyzer := (Analyzer.notice told stage x.analyzer).1 }
  | send (own told : Change) (unsent : Set Change) (stage_eq : x.stage = some .send)
      (held : x.commits.Held told.snapshot) (lines_eq : told.changedLines = own.changedLines)
      (version_le : own.snapshot.version ≤ told.snapshot.version)
      (sent : ∀ change ∈ x.unsent, change = own ∨ change ∈ unsent) (subset : unsent ⊆ x.unsent)
      (solo : alone → unsent = ∅) :
      Step tokenizer alone x
        { x with stage := none, unsent, analyzer := (Analyzer.notice told .send x.analyzer).1 }
  | work (b : Analyzer) (worked : x.analyzer.workerStep tokenizer = some b) :
      Step tokenizer alone x { x with analyzer := b }
  | take : Step tokenizer alone x { x with analyzer := x.analyzer.swapPatch.1 }

/-- What holds of a relay at all times. -/
structure Sound (tokenizer : Tokenizer) (x : Relay) : Prop where
  chained : x.commits.Chained
  working : x.analyzer.Working tokenizer
  attentive : x.analyzer.Attentive x.stage
  receives : x.analyzer.Receives x.commits x.unsent
  published_le : x.analyzer.result.snapshotVersion ≤ x.analyzer.latestSeen.version

variable {tokenizer : Tokenizer} {alone : Prop} {x y : Relay}

/-- No stage but the last touches what the worker works on. -/
theorem notice_congr {told : Change} {stage next : NoticeStage} {a : Analyzer}
    (hnext : (Analyzer.notice told stage a).2 = some next) :
    let b := (Analyzer.notice told stage a).1
    b.queue = a.queue ∧ b.newest = a.newest ∧ b.result = a.result ∧ b.carried = a.carried ∧
      b.phase = a.phase ∧ b.patch = a.patch := by
  cases stage with
  | send => cases hnext
  | install | cancel | submit => exact ⟨rfl, rfl, rfl, rfl, rfl, rfl⟩

theorem sound_start : start.Sound tokenizer :=
  ⟨Commits.chained_nil, trivial, Analyzer.Attentive.start, Analyzer.Receives.start, Nat.le_refl _⟩

theorem Sound.step (h : x.Sound tokenizer) (hstep : Step tokenizer alone x y) :
    y.Sound tokenizer := by
  cases hstep with
  | commit batch change happly =>
    exact ⟨h.chained.concat happly, h.working, h.attentive,
      h.receives.commit change (Set.subset_insert _ _) (Set.mem_insert _ _), h.published_le⟩
  | begin huntold =>
    have hattentive := h.attentive
    rw [huntold] at hattentive
    exact ⟨h.chained, h.working, hattentive.begin, h.receives, h.published_le⟩
  | notice told stage next hstage hnext =>
    have hattentive := h.attentive
    rw [hstage] at hattentive
    obtain ⟨hqueue, hnewest, hresult, hcarried, hphase, hpatch⟩ := notice_congr hnext
    refine ⟨h.chained, h.working.congr hphase hnewest hresult hcarried fun _ hp => hpatch ▸ hp, ?_,
      h.receives.congr hqueue hnewest, ?_⟩
    · exact hnext ▸ hattentive.notice told
    · simpa only [hresult, Analyzer.latestSeen_congr hnewest] using h.published_le
  | send own told unsent hstage hheld hlines hversion hsent hsubset hsolo =>
    have hattentive := h.attentive
    rw [hstage] at hattentive
    exact ⟨h.chained, h.working.congr rfl rfl rfl rfl fun _ hp => hp, hattentive.notice told,
      h.receives.send h.chained hheld hlines hversion hsent rfl rfl, h.published_le⟩
  | work b hworked =>
    obtain ⟨hmove, hworking⟩ := h.working.step hworked
    refine ⟨h.chained, hworking, h.attentive.move h.working hmove, h.receives.move hmove, ?_⟩
    obtain ⟨hle, ⟨hsame, -⟩ | ⟨-, -, hpublished⟩⟩ := hmove.result h.working
    · exact hsame ▸ Nat.le_trans h.published_le hle
    · exact hpublished ▸ hle
  | take =>
    refine ⟨h.chained, h.working.congr rfl rfl rfl rfl ?_, h.attentive.congr none,
      h.receives.congr rfl rfl, h.published_le⟩
    intro patch hpatch
    cases hpatch

/-- With nothing unsent and nothing unsettled, no line is carried and the published table is that
of the latest commit. -/
theorem Sound.settled (h : x.Sound tokenizer) (hunsent : x.unsent = ∅)
    (hstage : x.stage = none) (hidle : x.analyzer.isIdle = true) :
    x.analyzer.carried = .empty ∧ x.analyzer.queue = [] ∧
      x.analyzer.result.snapshotVersion = x.commits.length := by
  have hreceives := h.receives
  rw [hunsent] at hreceives
  obtain ⟨hqueue, -, hup⟩ := h.attentive.idle hidle (by simp [hstage])
  refine ⟨hup.carried_eq, hqueue, ?_⟩
  rw [← hup.version_eq, hreceives.latestSeen_eq hqueue, Commits.latest,
    h.chained.version_eq (Nat.le_refl _)]

/-! ### How versions grow -/

/-- Neither the version nor that of the analysed snapshot goes back, and what was committed stays
committed. -/
structure Grows (x y : Relay) : Prop where
  version_le : x.analyzer.result.version ≤ y.analyzer.result.version
  snapshotVersion_le :
    x.analyzer.result.snapshotVersion ≤ y.analyzer.result.snapshotVersion
  commits_grow : x.commits <+: y.commits

theorem Grows.refl (x : Relay) : Grows x x := ⟨Nat.le_refl _, Nat.le_refl _, List.prefix_rfl⟩

theorem Grows.trans {z : Relay} (hxy : Grows x y) (hyz : Grows y z) : Grows x z :=
  ⟨Nat.le_trans hxy.version_le hyz.version_le,
    Nat.le_trans hxy.snapshotVersion_le hyz.snapshotVersion_le,
    hxy.commits_grow.trans hyz.commits_grow⟩

theorem Grows.of_result (hresult : y.analyzer.result = x.analyzer.result)
    (hcommits : x.commits <+: y.commits) : Grows x y :=
  ⟨by rw [hresult], by rw [hresult], hcommits⟩

theorem Sound.grows (h : x.Sound tokenizer) (hstep : Step tokenizer alone x y) : Grows x y := by
  cases hstep with
  | commit batch change => exact .of_result rfl (List.prefix_append _ _)
  | notice told stage next hstage hnext =>
    exact .of_result (notice_congr hnext).2.2.1 List.prefix_rfl
  | begin | send | take => exact .of_result rfl List.prefix_rfl
  | work b hworked =>
    obtain ⟨hmove, -⟩ := h.working.step hworked
    obtain ⟨-, ⟨hsame, -⟩ | ⟨hversion, -, hpublished⟩⟩ := hmove.result h.working
    · exact .of_result hsame List.prefix_rfl
    · refine ⟨?_, ?_, List.prefix_rfl⟩
      · show x.analyzer.result.version ≤ b.result.version
        omega
      · show x.analyzer.result.snapshotVersion ≤ b.result.snapshotVersion
        exact hpublished ▸ h.published_le

end Relay

end LineTokens
