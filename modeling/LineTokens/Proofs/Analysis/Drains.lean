import LineTokens.Proofs.Analysis.Entries
import LineTokens.Proofs.Analysis.Replay

/-! Patches on their way to a client. The worker stores the patch of a pass before its result, and a
client that finds none to take makes an empty one, with the version that is published by then. In
any interleaving, the patches that it takes are some of those stored, in their order and each once.
An empty one tells that the patch of its version has been taken before if as many patches as that
had been stored when the client found none. It does not tell so if a pass has ended since. -/

namespace LineTokens

/-- A step of a writer leaves the patch where it is. -/
theorem Writers.Effect.patch_eq {s t : Writers Analyzer NoticeStage}
    (h : Effect Analyzer.observers s t) : t.observed.patch = s.observed.patch := by
  cases h with
  | silent _ _ _ hobserved | commit _ _ _ _ _ _ hobserved | begin _ _ _ _ _ _ hobserved =>
    rw [hobserved]
  | tell own told stage _ _ _ _ hobserved =>
    rw [hobserved]
    cases stage <;> rfl

/-- Patches numbered from 1 on, none of them empty. -/
def Patch.Numbered (stored : List Patch) : Prop :=
  ∀ (k : Nat) patch, stored[k]? = some patch → patch.version = k + 1 ∧ patch.isEmpty = false

namespace Patch.Numbered

variable {stored : List Patch} {patch : Patch}

theorem concat (h : Numbered stored) (hversion : patch.version = stored.length + 1)
    (hentries : patch.isEmpty = false) : Numbered (stored ++ [patch]) := by
  intro k other hget
  rcases Nat.lt_trichotomy k stored.length with hlt | rfl | hgt
  · rw [List.getElem?_append_left hlt] at hget
    exact h k other hget
  · obtain rfl : patch = other := by simpa using hget
    exact ⟨hversion, hentries⟩
  · rw [List.getElem?_eq_none (by simp; omega)] at hget
    cases hget

theorem of_mem (h : Numbered stored) (hmem : patch ∈ stored) :
    patch.version ≤ stored.length ∧ patch.isEmpty = false := by
  obtain ⟨k, hk⟩ := List.getElem?_of_mem hmem
  obtain ⟨hversion, hentries⟩ := h k patch hk
  have hlt := (List.getElem?_eq_some_iff.mp hk).1
  exact ⟨by omega, hentries⟩

theorem pairwise (h : Numbered stored) : stored.Pairwise (·.version < ·.version) := by
  refine List.pairwise_iff_getElem.mpr fun j k hj hk hjk => ?_
  have hfirst := (h j _ (List.getElem?_eq_getElem hj)).1
  have hsecond := (h k _ (List.getElem?_eq_getElem hk)).1
  omega

/-- The last one has the number of all of them. -/
theorem exists_last (h : Numbered stored) (hne : stored ≠ []) :
    ∃ patch, stored.getLast? = some patch ∧ patch.version = stored.length := by
  have hpos := List.length_pos_iff.mpr hne
  have hlast := List.getLast?_eq_some_getLast hne
  refine ⟨_, hlast, ?_⟩
  rw [List.getLast?_eq_getElem?] at hlast
  have hversion := (h _ _ hlast).1
  omega

end Patch.Numbered

/-- What the version of an empty patch tells of the patches `returned` before to a client that found
none to take when `stored` patches had been stored. -/
structure Patch.EmptyTag (stored : Nat) (returned : List Patch) (version : Nat) : Prop where
  drained : version = stored → 0 < version → ∃ patch ∈ returned, patch.version = version
  /-- Passes have published since then, and their patches have not been returned. -/
  overtaken : stored < version → ∀ patch ∈ returned, patch.version < version
  /-- The last pass has not published, and its patch has been returned. -/
  ahead : version < stored → stored = version + 1 ∧ ∃ patch ∈ returned, patch.version = stored

namespace Concurrent

variable {tokenizer : Tokenizer} {c d : Concurrent} {actor : Actor} {schedule : List Actor}
  {stored : List Patch} {requests : List Change}

/-- The patches that the client has taken, without the empty ones that it has made. -/
def returned (c : Concurrent) : List Patch := c.taken.filter (!·.isEmpty)

/-- What holds of the patches stored so far and of those that the client has taken. -/
structure Handed (tokenizer : Tokenizer) (stored : List Patch) (c : Concurrent) : Prop where
  proper : ∃ passes, c.Proper tokenizer passes
  asked : c.analyzer.Asked c.writers.commits
  numbered : Patch.Numbered stored
  stored_eq : stored.length =
    c.analyzer.result.version + if c.analyzer.isPublishing then 1 else 0
  handed : (c.returned ++ c.analyzer.patch.toList).Sublist stored
  last : ∀ patch, stored.getLast? = some patch →
    c.analyzer.patch = some patch ∨ c.analyzer.patch = none ∧ patch ∈ c.returned

theorem handed_start (batches : List (List (List Edit))) :
    (start .empty .start batches).Handed tokenizer [] :=
  ⟨⟨0, proper_start batches⟩, asked_start batches, nofun, rfl, .slnil, nofun⟩

theorem Handed.returned_sublist (h : c.Handed tokenizer stored) : c.returned.Sublist stored :=
  (List.sublist_append_left _ _).trans h.handed

theorem Handed.patch_mem (h : c.Handed tokenizer stored) {patch : Patch}
    (hpatch : c.analyzer.patch = some patch) : patch ∈ stored := by
  refine h.handed.subset (List.mem_append_right _ ?_)
  rw [hpatch]
  exact List.mem_singleton_self patch

/-- The patch that waits to be taken is the last one stored. -/
theorem Handed.getLast?_eq (h : c.Handed tokenizer stored) {patch : Patch}
    (hpatch : c.analyzer.patch = some patch) : stored.getLast? = some patch := by
  obtain ⟨other, hlast, -⟩ := h.numbered.exists_last (List.ne_nil_of_mem (h.patch_mem hpatch))
  rcases h.last other hlast with hother | ⟨hnone, -⟩
  · obtain rfl : patch = other := Option.some.inj (hpatch.symm.trans hother)
    exact hlast
  · rw [hpatch] at hnone
    cases hnone

/-- The last patch stored has been returned, if none is left to take. -/
theorem Handed.exists_returned (h : c.Handed tokenizer stored)
    (hnone : c.analyzer.patch = none) (hne : stored ≠ []) :
    ∃ patch ∈ c.returned, patch.version = stored.length := by
  obtain ⟨patch, hlast, hversion⟩ := h.numbered.exists_last hne
  rcases h.last patch hlast with hpatch | ⟨-, hmem⟩
  · rw [hnone] at hpatch
    cases hpatch
  · exact ⟨patch, hmem, hversion⟩

/-! ### Steps -/

/-- A step that stores no patch, publishes no result and returns no patch with entries. -/
theorem Handed.congr (h : c.Handed tokenizer stored) (hproper : ∃ passes, d.Proper tokenizer passes)
    (hasked : d.analyzer.Asked d.writers.commits)
    (hresult : d.analyzer.result = c.analyzer.result)
    (hpublishing : d.analyzer.isPublishing = c.analyzer.isPublishing)
    (hpatch : d.analyzer.patch = c.analyzer.patch) (hreturned : d.returned = c.returned) :
    d.Handed tokenizer stored := by
  refine ⟨hproper, hasked, h.numbered, ?_, ?_, ?_⟩
  · rw [hresult, hpublishing]
    exact h.stored_eq
  · rw [hpatch, hreturned]
    exact h.handed
  · rw [hpatch, hreturned]
    exact h.last

/-- The patch of a completed pass is stored, and replaces one that nobody has taken. -/
theorem Handed.store (h : c.Handed tokenizer stored) (hproper : ∃ passes, d.Proper tokenizer passes)
    (hasked : d.analyzer.Asked d.writers.commits) {patch : Patch}
    (hversion : patch.version = c.analyzer.result.version + 1) (hentries : patch.isEmpty = false)
    (hresult : d.analyzer.result = c.analyzer.result) (hbefore : c.analyzer.isPublishing = false)
    (hafter : d.analyzer.isPublishing = true) (hpatch : d.analyzer.patch = some patch)
    (hreturned : d.returned = c.returned) : d.Handed tokenizer (stored ++ [patch]) := by
  have hstored := h.stored_eq
  rw [hbefore] at hstored
  have hlength : stored.length = c.analyzer.result.version := hstored
  refine ⟨hproper, hasked, h.numbered.concat (by omega) hentries, ?_, ?_, fun other hlast => ?_⟩
  · rw [hresult, hafter, List.length_append, hlength]
    rfl
  · rw [hreturned, hpatch]
    exact h.returned_sublist.append (.refl _)
  · rw [List.getLast?_concat] at hlast
    exact .inl (hpatch.trans hlast)

/-- The result of the patch stored last is published. -/
theorem Handed.publish (h : c.Handed tokenizer stored)
    (hproper : ∃ passes, d.Proper tokenizer passes) (hasked : d.analyzer.Asked d.writers.commits)
    (hversion : d.analyzer.result.version = c.analyzer.result.version + 1)
    (hbefore : c.analyzer.isPublishing = true) (hafter : d.analyzer.isPublishing = false)
    (hpatch : d.analyzer.patch = c.analyzer.patch) (hreturned : d.returned = c.returned) :
    d.Handed tokenizer stored := by
  refine ⟨hproper, hasked, h.numbered, ?_, ?_, ?_⟩
  · rw [h.stored_eq, hversion, hbefore, hafter]
    rfl
  · rw [hpatch, hreturned]
    exact h.handed
  · rw [hpatch, hreturned]
    exact h.last

theorem Handed.work (h : c.Handed tokenizer stored) (hstep : c.step tokenizer .worker = some d) :
    d.Handed tokenizer (stored ++ (storedPatch? c d .worker).toList) := by
  obtain ⟨passes, hproper⟩ := h.proper
  have hproper' : ∃ passes, d.Proper tokenizer passes := ⟨_, (hproper.step hstep).1⟩
  have hasked := asked_step h.asked hproper hstep
  obtain ⟨b, hb, rfl⟩ := Option.map_eq_some_iff.mp hstep
  have hworking : c.analyzer.Working tokenizer := hproper.sound.working
  cases hworking.publishes hb with
  | quiet hstoring hbefore hafter hpatch hresult =>
    rw [storedPatch?_eq_none hstoring, Option.toList_none, List.append_nil]
    exact h.congr hproper' hasked hresult (hafter.trans hbefore.symm) hpatch rfl
  | store consumed done hdone hbefore hafter hpatch hresult =>
    have hstored : storedPatch? c (c.withAnalyzer b) .worker = some done.patch :=
      storedPatch?_eq_some hbefore hpatch
    have hversion : done.patch.version = c.analyzer.result.version + 1 := hdone.version_eq
    have hentries : done.patch.entries ≠ [] :=
      h.asked.entries_ne_nil hproper.orderly.chained hproper.sound.receives.seen_held
        (by rw [hbefore]; exact id) hdone
    rw [hstored, Option.toList_some]
    exact h.store hproper' hasked hversion (List.isEmpty_eq_false_iff.mpr hentries) hresult
      (by rw [Analyzer.isPublishing, hbefore]) (Analyzer.isPublishing_of_storing hafter) hpatch rfl
  | publish consumed done hdone hbefore hafter hpatch hresult =>
    have hstored : storedPatch? c (c.withAnalyzer b) .worker = none := by
      refine storedPatch?_eq_none fun _ _ _ hphase => ?_
      cases hbefore.symm.trans hphase
    have hquiet : b.isPublishing = false := by rw [Analyzer.isPublishing, hafter]
    have hversion : b.result.version = c.analyzer.result.version + 1 :=
      (congrArg AnalysisResult.version hresult).trans hdone.version_eq
    rw [hstored, Option.toList_none, List.append_nil]
    exact h.publish hproper' hasked hversion (Analyzer.isPublishing_of_storing hbefore) hquiet
      hpatch rfl

/-- The client makes an empty patch, finds none to take, or takes the one there is. -/
theorem clientStep_cases (c : Concurrent) :
    c.client = .missed ∧ c.clientStep =
        { c with client := .ready, taken := c.taken ++ [c.analyzer.emptyPatch] } ∨
      c.client = .ready ∧ c.analyzer.patch = none ∧ c.clientStep =
        { c.withAnalyzer { c.analyzer with patch := none } with client := .missed } ∨
      c.client = .ready ∧ ∃ patch, c.analyzer.patch = some patch ∧ c.clientStep =
        { c.withAnalyzer { c.analyzer with patch := none } with taken := c.taken ++ [patch] } := by
  cases hclient : c.client with
  | missed => exact .inl ⟨rfl, by rw [clientStep, hclient]⟩
  | ready =>
    refine .inr ?_
    cases hpatch : c.analyzer.patch with
    | none => exact .inl ⟨rfl, rfl, by simp only [clientStep, hclient, Analyzer.swapPatch, hpatch]⟩
    | some patch =>
      exact .inr ⟨rfl, patch, rfl, by simp only [clientStep, hclient, Analyzer.swapPatch, hpatch]⟩

theorem Handed.take (h : c.Handed tokenizer stored) : c.clientStep.Handed tokenizer stored := by
  obtain ⟨passes, hproper⟩ := h.proper
  have hstep : c.step tokenizer .client = some c.clientStep := rfl
  have hproper' : ∃ passes, c.clientStep.Proper tokenizer passes := ⟨_, (hproper.step hstep).1⟩
  have hasked := asked_step h.asked hproper hstep
  rcases c.clientStep_cases with ⟨-, hmade⟩ | ⟨-, hnone, hmissed⟩ | ⟨-, patch, hpatch, htaken⟩
  · rw [hmade] at hproper' hasked ⊢
    refine h.congr hproper' hasked rfl rfl rfl ?_
    rw [returned, List.filter_append]
    exact List.append_nil _
  · rw [hmissed] at hproper' hasked ⊢
    exact h.congr hproper' hasked rfl rfl hnone.symm rfl
  · have hentries : patch.isEmpty = false := (h.numbered.of_mem (h.patch_mem hpatch)).2
    have hreturned : c.clientStep.returned = c.returned ++ [patch] := by
      rw [htaken, returned, List.filter_append, List.filter_singleton, hentries]
      rfl
    have hgone : c.clientStep.analyzer.patch = none := by rw [htaken]; rfl
    refine ⟨hproper', hasked, h.numbered, ?_, ?_, fun other hlast => .inr ⟨hgone, ?_⟩⟩
    · rw [htaken]
      exact h.stored_eq
    · have hhanded := h.handed
      rw [hpatch, Option.toList_some] at hhanded
      rwa [hreturned, hgone, Option.toList_none, List.append_nil]
    · rcases h.last other hlast with hsame | ⟨hnone, -⟩
      · obtain rfl : patch = other := Option.some.inj (hpatch.symm.trans hsame)
        rw [hreturned]
        exact List.mem_append_right _ (List.mem_singleton_self patch)
      · rw [hpatch] at hnone
        cases hnone

theorem Handed.step (h : c.Handed tokenizer stored) (hstep : c.step tokenizer actor = some d) :
    d.Handed tokenizer (stored ++ (storedPatch? c d actor).toList) := by
  cases actor with
  | worker => exact h.work hstep
  | client =>
    obtain rfl := Option.some.inj hstep
    rw [storedPatch?, Option.toList_none, List.append_nil]
    exact h.take
  | writer i =>
    obtain ⟨passes, hproper⟩ := h.proper
    have hasked := asked_step h.asked hproper hstep
    have hproper' := (hproper.step hstep).1
    obtain ⟨t, ht, rfl⟩ := Option.map_eq_some_iff.mp hstep
    obtain ⟨-, heffect⟩ := effect_step hproper.orderly ht
    rw [storedPatch?, Option.toList_none, List.append_nil]
    exact h.congr ⟨_, hproper'⟩ hasked heffect.result_eq
      (Analyzer.isPublishing_congr heffect.phase_eq) heffect.patch_eq rfl

theorem Handed.follow (h : c.Handed tokenizer stored)
    (hran : c.follow tokenizer schedule = some (d, requests)) :
    d.Handed tokenizer (stored ++ c.watch storedPatch? tokenizer schedule) := by
  induction schedule generalizing c stored requests with
  | nil =>
    cases hran
    simpa [watch] using h
  | cons actor rest ih =>
    obtain ⟨next, later, hnext, hlater, -⟩ := follow_cons_eq_some hran
    have hrest := ih (h.step hnext) hlater
    rw [watch, hnext]
    simpa only [List.append_assoc] using hrest

/-! ### Empty patches -/

theorem step_client (hstep : c.step tokenizer actor = some d) (haway : .client ≠ actor) :
    d.client = c.client ∧ d.taken = c.taken := by
  cases actor with
  | client => exact absurd rfl haway
  | writer i =>
    obtain ⟨t, -, rfl⟩ := Option.map_eq_some_iff.mp hstep
    exact ⟨rfl, rfl⟩
  | worker =>
    obtain ⟨b, -, rfl⟩ := Option.map_eq_some_iff.mp hstep
    exact ⟨rfl, rfl⟩

/-- Steps of the writers and the worker give the client nothing, and no version goes back. -/
theorem away (hproper : ∃ passes, c.Proper tokenizer passes)
    (hran : c.follow tokenizer schedule = some (d, requests)) (haway : .client ∉ schedule) :
    d.taken = c.taken ∧ c.analyzer.result.version ≤ d.analyzer.result.version := by
  induction schedule generalizing c requests with
  | nil =>
    cases hran
    exact ⟨rfl, Nat.le_refl _⟩
  | cons actor rest ih =>
    obtain ⟨passes, hproper⟩ := hproper
    obtain ⟨next, later, hnext, hlater, -⟩ := follow_cons_eq_some hran
    obtain ⟨hproper', hgrows⟩ := hproper.step hnext
    rw [List.mem_cons, not_or] at haway
    obtain ⟨htaken, hle⟩ := ih ⟨_, hproper'⟩ hlater haway.2
    exact ⟨htaken.trans (step_client hnext haway.1).2, hgrows.version_le.trans hle⟩

/-- What the version looked up says, after the client has found none to take. -/
theorem Handed.emptyTag (h : c.Handed tokenizer stored) (hnone : c.analyzer.patch = none)
    (hreturned : d.returned = c.returned)
    (hle : c.analyzer.result.version ≤ d.analyzer.result.version) :
    Patch.EmptyTag stored.length d.returned d.analyzer.result.version := by
  have hlast : 0 < stored.length → ∃ patch ∈ d.returned, patch.version = stored.length := by
    intro hpos
    rw [hreturned]
    exact h.exists_returned hnone (List.ne_nil_of_length_pos hpos)
  have hstored := h.stored_eq
  refine ⟨fun heq hpos => ?_, fun hlt patch hmem => ?_, fun hlt => ⟨?_, hlast (by omega)⟩⟩
  · rw [heq] at hpos ⊢
    exact hlast hpos
  · rw [hreturned] at hmem
    exact (h.numbered.of_mem (h.returned_sublist.subset hmem)).1.trans_lt hlt
  · split at hstored <;> omega

/-- A client that is about to make an empty patch has found none before, and has made no step
since. -/
theorem Handed.missed (h : c.Handed tokenizer stored)
    (hran : c.follow tokenizer schedule = some (d, requests)) (hmissed : d.client = .missed) :
    c.client = .missed ∧ .client ∉ schedule ∨
      ∃ before others, schedule = before ++ .client :: others ∧ .client ∉ others ∧
        Patch.EmptyTag (stored ++ c.watch storedPatch? tokenizer before).length d.returned
          d.analyzer.result.version := by
  induction schedule generalizing c stored requests with
  | nil =>
    cases hran
    exact .inl ⟨hmissed, List.not_mem_nil⟩
  | cons actor rest ih =>
    obtain ⟨next, later, hnext, hlater, -⟩ := follow_cons_eq_some hran
    rcases ih (h.step hnext) hlater with ⟨hclient, haway⟩ | ⟨before, others, rfl, hothers, htag⟩
    · by_cases hactor : .client = actor
      · -- The client finds none with this very step.
        subst hactor
        obtain rfl := Option.some.inj hnext
        obtain ⟨htaken, hle⟩ := away h.take.proper hlater haway
        rcases c.clientStep_cases with ⟨-, hmade⟩ | ⟨-, hnone, hfound⟩ | ⟨hready, patch, -, htook⟩
        · rw [hmade] at hclient
          cases hclient
        · rw [hfound] at htaken hle
          have hreturned : d.returned = c.returned := by
            rw [returned, htaken]
            rfl
          refine .inr ⟨[], rest, rfl, haway, ?_⟩
          rw [watch, List.append_nil]
          exact h.emptyTag hnone hreturned hle
        · rw [htook] at hclient
          cases hready.symm.trans hclient
      · refine .inl ⟨(step_client hnext hactor).1.symm.trans hclient, ?_⟩
        rw [List.mem_cons, not_or]
        exact ⟨hactor, haway⟩
    · refine .inr ⟨actor :: before, others, rfl, hothers, ?_⟩
      rw [List.append_assoc] at htag
      rw [watch, hnext]
      exact htag

/-- Writers, worker and client in any interleaving: the patches stored are numbered, none is empty,
and one that waits to be taken is the last. Those that the client has taken are some of them, in
their order and each once. When it is about to make an empty one, this has the published version,
which tells what `EmptyTag` lists. -/
theorem patches_returned_in_order {batches : List (List (List Edit))}
    (hran : (start .empty .start batches).follow tokenizer schedule = some (c, requests)) :
    let first := start .empty .start batches
    let stored := first.watch storedPatch? tokenizer schedule
    Patch.Numbered stored ∧
      (∀ patch, c.analyzer.patch = some patch → stored.getLast? = some patch) ∧
      c.returned.Sublist stored ∧ c.returned.Pairwise (·.version < ·.version) ∧
      (c.client = .missed →
        c.clientStep.taken = c.taken ++ [⟨c.analyzer.result.version, []⟩] ∧
        ∃ before others, schedule = before ++ .client :: others ∧ .client ∉ others ∧
          Patch.EmptyTag (first.watch storedPatch? tokenizer before).length c.returned
            c.analyzer.result.version) := by
  intro first stored
  have hfirst : first.Handed tokenizer [] := handed_start batches
  have h : c.Handed tokenizer stored := hfirst.follow hran
  refine ⟨h.numbered, fun patch => h.getLast?_eq, h.returned_sublist,
    h.numbered.pairwise.sublist h.returned_sublist, fun hmissed => ⟨?_, ?_⟩⟩
  · rw [clientStep, hmissed]
    rfl
  · refine (hfirst.missed hran hmissed).resolve_left fun hclient => ?_
    cases hclient.1

/-- The client takes the patch of the second pass before its result is published, and then finds
none to take. -/
theorem patches_returned_in_order_ahead_of_version :
    let first := start .empty .start [[[.insertLine 0 ['a', '!']], [⟨0, 2, 0, ['b']⟩]]]
    let before : List Actor := [.replicate 10 (.writer 0), .replicate 9 .worker, [.client],
      .replicate 10 (.writer 0), .replicate 7 .worker, [.client]].flatten
    let patches : List Patch :=
      [⟨1, [⟨0, 0, [⟨0, 1, 1, .holds⟩]⟩]⟩, ⟨2, [⟨0, 1, [⟨0, 1, 1, .fails⟩]⟩]⟩]
    ∃ c requests, first.follow .firstBang (before ++ [.client]) = some (c, requests) ∧
      c.client = .missed ∧ c.returned = patches ∧ c.clientStep.taken = patches ++ [⟨1, []⟩] ∧
      Patch.EmptyTag 2 patches 1 := by
  intro first before patches
  have hrun : (first.follow .firstBang (before ++ [.client])).map (fun run =>
      (run.1.client, run.1.taken, run.1.returned, run.1.analyzer.result.version)) =
        some (.missed, patches, patches, 1) := by decide +kernel
  have hstored : (first.watch storedPatch? .firstBang before).length = 2 := by decide +kernel
  obtain ⟨⟨c, requests⟩, hran, hrun⟩ := Option.map_eq_some_iff.mp hrun
  simp only [Prod.mk.injEq] at hrun
  obtain ⟨hmissed, htaken, hreturned, hversion⟩ := hrun
  obtain ⟨-, -, -, -, hempty⟩ := patches_returned_in_order hran
  obtain ⟨hmade, earlier, others, hsplit, haway, htag⟩ := hempty hmissed
  obtain rfl : earlier = before := by
    rcases List.eq_nil_or_concat others with rfl | ⟨others, actor, rfl⟩
    · exact (List.append_cancel_right hsplit).symm
    · rw [List.concat_eq_append] at hsplit haway
      rw [← List.cons_append, ← List.append_assoc] at hsplit
      cases (List.append_inj' hsplit rfl).2
      exact absurd (List.mem_append_right _ (List.mem_singleton_self _)) haway
  rw [hstored, hreturned, hversion] at htag
  rw [htaken, hversion] at hmade
  exact ⟨c, requests, hran, hmissed, hreturned, hmade, htag⟩

/-- A pass stores its patch and publishes its result after the client has found none to take and
before it looks up the version. So it makes an empty patch of version 1, and has not taken the patch
of version 1, which is still there. -/
theorem empty_patch_of_version_not_returned :
    let first := start .empty .start [[[.insertLine 0 ['a', '!']]]]
    let schedule : List Actor := [.replicate 10 (.writer 0), .replicate 6 .worker, [.client],
      .replicate 2 .worker, [.client]].flatten
    ∃ c, Reachable .firstBang first c ∧ c.taken = [⟨1, []⟩] ∧ c.returned = [] ∧
      c.analyzer.patch = some ⟨1, [⟨0, 0, [⟨0, 1, 1, .holds⟩]⟩]⟩ ∧
      first.watch storedPatch? .firstBang schedule = [⟨1, [⟨0, 0, [⟨0, 1, 1, .holds⟩]⟩]⟩] := by
  intro first schedule
  have hrun : (first.follow .firstBang schedule).map (fun run =>
      (run.1.taken, run.1.returned, run.1.analyzer.patch)) =
        some ([⟨1, []⟩], [], some ⟨1, [⟨0, 0, [⟨0, 1, 1, .holds⟩]⟩]⟩) := by decide +kernel
  have hstored : first.watch storedPatch? .firstBang schedule =
      [⟨1, [⟨0, 0, [⟨0, 1, 1, .holds⟩]⟩]⟩] := by decide +kernel
  obtain ⟨⟨c, requests⟩, hran, hrun⟩ := Option.map_eq_some_iff.mp hrun
  simp only [Prod.mk.injEq] at hrun
  obtain ⟨htaken, hreturned, hpatch⟩ := hrun
  exact ⟨c, reachable_iff_follow.mpr ⟨_, _, hran⟩, htaken, hreturned, hpatch, hstored⟩

end Concurrent

end LineTokens
