import LineTokens.Proofs.Analysis.Exact
import Mathlib.Logic.Relation

/-! The pending patch, with commits told one at a time. `Since` follows a relay from a published
result on: while a patch is pending that leads to the version after that result, it is the patch
that leads there from its table. -/

namespace LineTokens

namespace Relay

variable {tokenizer : Tokenizer} {base : AnalysisResult} {x y : Relay}

/-- Any number of steps, with commits told one at a time. -/
abbrev Run (tokenizer : Tokenizer) : Relay → Relay → Prop :=
  Relation.ReflTransGen (Step tokenizer True)

theorem Run.invariant {p : Relay → Prop} (hrun : Run tokenizer x y) (hsound : x.Sound tokenizer)
    (hexact : x.Exact tokenizer) (hx : p x)
    (hstep : ∀ {x y}, x.Sound tokenizer → x.Exact tokenizer → Step tokenizer True x y → p x → p y) :
    y.Sound tokenizer ∧ y.Exact tokenizer ∧ p y := by
  induction hrun with
  | refl => exact ⟨hsound, hexact, hx⟩
  | tail _ hlast ih =>
    obtain ⟨hsound', hexact', hp⟩ := ih
    exact ⟨hsound'.step hlast, hexact'.step hsound' hlast, hstep hsound' hexact' hlast hp⟩

theorem Run.sound_exact (hrun : Run tokenizer start x) :
    x.Sound tokenizer ∧ x.Exact tokenizer := by
  obtain ⟨hsound, hexact, -⟩ :=
    hrun.invariant (p := fun _ => True) sound_start exact_start trivial fun _ _ _ h => h
  exact ⟨hsound, hexact⟩

theorem Run.grows (hrun : Run tokenizer x y) (hsound : x.Sound tokenizer)
    (hexact : x.Exact tokenizer) : Grows x y :=
  (hrun.invariant hsound hexact (.refl x) fun hs _ hstep h => h.trans (hs.grows hstep)).2.2

/-- What has been published since `base` was, and what the pending patch leads to. -/
structure Since (base : AnalysisResult) (x : Relay) : Prop where
  version_le : base.version ≤ x.analyzer.result.version
  result_eq : x.analyzer.result.version = base.version → x.analyzer.result = base
  pending : x.analyzer.isPublishing = false → ∀ patch, x.analyzer.patch = some patch →
    patch.version = x.analyzer.result.version ∧
      (x.analyzer.result.version = base.version + 1 → patch.Leads base x.analyzer.result)

theorem since_start : start.Since .empty := by
  refine ⟨Nat.le_refl _, fun _ => rfl, fun _ patch hpatch => ?_⟩
  cases hpatch

/-- A result that is published now can be followed from now on. -/
theorem Since.rebase (h : x.Since base) : x.Since x.analyzer.result := by
  refine ⟨Nat.le_refl _, fun _ => rfl, fun hpublishing patch hpatch => ?_⟩
  refine ⟨(h.pending hpublishing patch hpatch).1, fun hnext => ?_⟩
  omega

theorem Since.congr (h : x.Since base) (hresult : y.analyzer.result = x.analyzer.result)
    (hphase : y.analyzer.isPublishing = false → x.analyzer.isPublishing = false)
    (hpatch : ∀ patch, y.analyzer.patch = some patch → x.analyzer.patch = some patch) :
    y.Since base := by
  refine ⟨hresult ▸ h.version_le, fun heq => ?_, fun hpublishing patch hp => ?_⟩
  · rw [hresult] at heq ⊢
    exact h.result_eq heq
  · rw [hresult]
    exact h.pending (hphase hpublishing) patch (hpatch patch hp)

/-- The result of a pass is published, and the patch of that pass is pending or has been taken. -/
theorem Since.publish (h : x.Since base) (hsound : x.Sound tokenizer) (hexact : x.Exact tokenizer)
    {consumed : Nat} {result : AnalysisResult}
    (hstoring : x.analyzer.phase = .storingResult consumed result) :
    Since base
      { x with
        analyzer :=
          { x.analyzer with result, carried := .empty, phase := .settling consumed } } := by
  obtain ⟨done, hdone, rfl, hpatch⟩ := hsound.working.of_storing hstoring
  have hversion := hdone.version_eq
  have hle := h.version_le
  refine ⟨by dsimp only; omega, fun heq => ?_, fun _ patch hp => ?_⟩
  · dsimp only at heq
    omega
  · obtain rfl := hpatch patch hp
    have hleads : done.patch.Leads x.analyzer.result done.result := by
      obtain ⟨pending, flag, rfl⟩ := hdone.eq_complete
      exact AnalysisResult.leads_complete hexact.tokenizes.canonical
    refine ⟨hleads.patch_version_eq, fun hnext => ?_⟩
    have hbase : x.analyzer.result = base := h.result_eq (by dsimp only at hnext; omega)
    exact hbase ▸ hleads

theorem Since.step (h : x.Since base) (hsound : x.Sound tokenizer) (hexact : x.Exact tokenizer)
    (hstep : Step tokenizer True x y) : y.Since base := by
  cases hstep with
  | commit | begin => exact h.congr rfl id fun _ hp => hp
  | notice told stage next hstage hnext =>
    obtain ⟨-, -, hresult, -, hphase, hpatch⟩ := notice_congr hnext
    refine h.congr hresult (fun hpublishing => ?_) fun _ hp => hpatch ▸ hp
    rwa [Analyzer.isPublishing, hphase] at hpublishing
  | send => exact h.congr rfl id fun _ hp => hp
  | work b hworked =>
    obtain ⟨hmove, -⟩ := hsound.working.step hworked
    have hquiet := hmove.not_publishing hsound.working
    cases hmove with
    | drain | proceed | settle => exact h.congr rfl (fun _ => hquiet rfl) fun _ hp => hp
    | storePatch consumed result patch hstoring =>
      refine ⟨h.version_le, h.result_eq, fun hpublishing => ?_⟩
      cases hpublishing
    | publish consumed result hstoring => exact h.publish hsound hexact hstoring
  | take =>
    refine h.congr rfl id fun _ hp => ?_
    cases hp

/-- From the result published at `x` on. -/
theorem Run.since (hrun : Run tokenizer start x) (hmore : Run tokenizer x y) :
    y.Since x.analyzer.result := by
  obtain ⟨hsound, hexact, hsince⟩ := hrun.invariant (p := Since .empty) sound_start exact_start
    since_start fun hs he hstep h => h.step hs he hstep
  exact (hmore.invariant (p := Since x.analyzer.result) hsound hexact hsince.rebase
    fun hs he hstep h => h.step hs he hstep).2.2

end Relay

end LineTokens
