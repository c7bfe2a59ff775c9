import LineTokens.Proofs.Analysis.Relay

/-! What the published table says. `Exact` holds with commits told one at a time: the table is that
of the snapshot it names, because the carried lines hold all that has changed up to the newest
snapshot seen. `Catching` holds with any number of commits unsent: a line of the latest commit has
its token, unless it is carried, queued or unsent. -/

namespace LineTokens

namespace Relay

variable {tokenizer : Tokenizer} {alone : Prop} {x y : Relay}

/-! ### Commits told one at a time -/

/-- The published table is exact for the snapshot that it names. -/
structure Exact (tokenizer : Tokenizer) (x : Relay) : Prop where
  /-- An unsent commit is newer than all that the analyzer has been told of. -/
  ahead : ∀ own ∈ x.unsent, x.analyzer.latestSeen.version < own.snapshot.version ∧
    ∀ request ∈ x.analyzer.queue, request.snapshot.version < own.snapshot.version
  carried : ∀ k change, x.analyzer.result.snapshotVersion ≤ k → k < x.analyzer.latestSeen.version →
    x.commits[k]? = some change → ∀ line ∈ change.changedLines, line ∈ x.analyzer.carried
  tokenizes : x.analyzer.result.table.Tokenizes tokenizer
    (x.commits.snapshot x.analyzer.result.snapshotVersion).lines

theorem exact_start : start.Exact tokenizer :=
  ⟨fun _ hown => absurd hown (Set.notMem_empty _), fun _ _ _ hlt => absurd hlt (Nat.not_lt_zero _),
    .empty⟩

/-- Steps that touch neither the commits nor what the worker works on. -/
theorem Exact.congr (h : x.Exact tokenizer) (hcommits : y.commits = x.commits)
    (hunsent : y.unsent ⊆ x.unsent) (hqueue : y.analyzer.queue = x.analyzer.queue)
    (hnewest : y.analyzer.newest = x.analyzer.newest)
    (hresult : y.analyzer.result = x.analyzer.result)
    (hcarried : y.analyzer.carried = x.analyzer.carried) : y.Exact tokenizer := by
  have hseen := Analyzer.latestSeen_congr hnewest
  refine ⟨fun own hown => ?_, ?_, ?_⟩
  · rw [hseen, hqueue]
    exact h.ahead own (hunsent hown)
  · rw [hresult, hseen, hcommits, hcarried]
    exact h.carried
  · rw [hresult, hcommits]
    exact h.tokenizes

theorem Exact.commit (h : x.Exact tokenizer) (hsound : x.Sound tokenizer) {change : Change}
    {batch : List Edit} (happly : x.commits.latest.apply batch = .ok (some change)) :
    Exact tokenizer
      { x with commits := x.commits ++ [change], unsent := insert change x.unsent } := by
  have hseen := hsound.receives.seen_held.version_le
  have hpublished := hsound.published_le
  have hversion : change.snapshot.version = x.commits.length + 1 := by
    have hchained := hsound.chained.concat happly
    have hlast := hchained.version_eq (k := x.commits.length + 1) (by simp)
    have hget : (x.commits ++ [change])[x.commits.length]? = some change := by simp
    rwa [Commits.snapshot_succ hget] at hlast
  refine ⟨fun own hown => ?_, fun k other hle hlt hget => ?_, ?_⟩
  · rcases hown with rfl | hown
    · refine ⟨by dsimp only; omega, fun request hrequest => ?_⟩
      have := (hsound.receives.queue_held request hrequest).version_le
      omega
    · exact h.ahead own hown
  · have hk : k < x.commits.length := Nat.lt_of_lt_of_le hlt hseen
    exact h.carried k other hle hlt ((List.getElem?_append_left hk).symm.trans hget)
  · dsimp only
    rw [Commits.snapshot_append (Nat.le_trans hpublished hseen)]
    exact h.tokenizes

/-- The requests drained name the lines of all commits up to the newest snapshot among them. -/
theorem Exact.drain (h : x.Exact tokenizer) (hsound : x.Sound tokenizer) :
    Exact tokenizer { x with analyzer := x.analyzer.drain } := by
  obtain ⟨hmem, hle, hall⟩ := x.analyzer.latestSeen_drain
  have hahead : ∀ own ∈ x.unsent, x.analyzer.drain.latestSeen.version < own.snapshot.version := by
    intro own hown
    obtain ⟨hseen, hqueue⟩ := h.ahead own hown
    rcases hmem with heq | ⟨request, hrequest, heq⟩
    · rwa [heq]
    · rw [heq]
      exact hqueue request hrequest
  refine ⟨fun own hown => ⟨hahead own hown, fun request hrequest => ?_⟩, ?_, h.tokenizes⟩
  · exact absurd hrequest List.not_mem_nil
  · intro k change hk hlt hget line hline
    rw [Analyzer.mem_carried_drain]
    by_cases hold : k < x.analyzer.latestSeen.version
    · exact .inl (h.carried k change hk hold hget line hline)
    · rcases hsound.receives.covered k change (by omega) hget with
        ⟨request, hrequest, hlines, -⟩ | hunsent
      · exact .inr ⟨request, hrequest, hlines ▸ hline⟩
      · have hnew := hahead change hunsent
        have hk' : k < x.commits.length := (List.getElem?_eq_some_iff.mp hget).1
        rw [← Commits.snapshot_succ hget, hsound.chained.version_eq hk'] at hnew
        have hlt' : k < x.analyzer.drain.latestSeen.version := hlt
        omega

theorem Exact.publish (h : x.Exact tokenizer) (hsound : x.Sound tokenizer) {consumed : Nat}
    {result : AnalysisResult} (hstoring : x.analyzer.phase = .storingResult consumed result) :
    Exact tokenizer
      { x with
        analyzer :=
          { x.analyzer with result, carried := .empty, phase := .settling consumed } } := by
  obtain ⟨done, hdone, rfl, -⟩ := hsound.working.of_storing hstoring
  have hversion := hdone.snapshotVersion_eq
  have hheld := hsound.receives.seen_held
  have hle := hsound.published_le
  refine ⟨h.ahead, fun k change hk hlt hget => ?_, ?_⟩
  · have hk' : x.analyzer.latestSeen.version ≤ k := hversion ▸ hk
    exact absurd hlt (Nat.not_lt.mpr hk')
  · dsimp only
    rw [hversion, hheld.snapshot_eq]
    obtain ⟨pending, flag, rfl⟩ := hdone.eq_complete
    refine AnalysisResult.tokenizes_complete h.tokenizes (hheld.wellFormed hsound.chained) ?_
    rw [← hheld.snapshot_eq]
    refine ⟨hsound.chained.length_lines_le hle hheld.version_le, fun line hline => ?_⟩
    refine hsound.chained.line_eq hle hheld.version_le fun k change hk hlt hget hin => ?_
    exact hline (h.carried k change hk hlt hget line hin)

theorem Exact.step (h : x.Exact tokenizer) (hsound : x.Sound tokenizer)
    (hstep : Step tokenizer True x y) : y.Exact tokenizer := by
  cases hstep with
  | commit batch change happly => exact h.commit hsound happly
  | begin huntold => exact h.congr rfl subset_rfl rfl rfl rfl rfl
  | notice told stage next hstage hnext =>
    obtain ⟨hqueue, hnewest, hresult, hcarried, -, -⟩ := notice_congr hnext
    exact h.congr rfl subset_rfl hqueue hnewest hresult hcarried
  | send own told unsent hstage hheld hlines hversion hsent hsubset hsolo =>
    obtain rfl : unsent = ∅ := hsolo trivial
    exact ⟨fun _ hown => absurd hown (Set.notMem_empty _), h.carried, h.tokenizes⟩
  | work b hworked =>
    obtain ⟨hmove, -⟩ := hsound.working.step hworked
    cases hmove with
    | drain hwaiting hasked => exact h.drain hsound
    | publish consumed result hstoring => exact h.publish hsound hstoring
    | proceed | storePatch | settle => exact h.congr rfl subset_rfl rfl rfl rfl rfl
  | take => exact h.congr rfl subset_rfl rfl rfl rfl rfl

/-! ### Any number of commits unsent -/

/-- Each line of the latest commit has its token in the published table, or its number is still on
its way to the worker. -/
structure Catching (tokenizer : Tokenizer) (x : Relay) : Prop where
  canonical : x.analyzer.result.table.Canonical
  size_eq : x.analyzer.result.table.size =
    (x.commits.snapshot x.analyzer.result.snapshotVersion).lines.length
  current : ∀ line text, x.commits.latest.lines[line]? = some text → line ∉ x.analyzer.carried →
    (∀ request ∈ x.analyzer.queue, line ∉ request.changedLines) →
    (∀ own ∈ x.unsent, line ∉ own.changedLines) →
    x.analyzer.result.table.get? line = tokenizer line text

theorem catching_start : start.Catching tokenizer :=
  ⟨TokenTable.canonical_empty, rfl, by
    intro line text hline
    cases hline⟩

theorem Catching.congr (h : x.Catching tokenizer) (hcommits : y.commits = x.commits)
    (hunsent : y.unsent = x.unsent) (hqueue : y.analyzer.queue = x.analyzer.queue)
    (hresult : y.analyzer.result = x.analyzer.result)
    (hcarried : y.analyzer.carried = x.analyzer.carried) : y.Catching tokenizer := by
  refine ⟨?_, ?_, ?_⟩
  · rw [hresult]
    exact h.canonical
  · rw [hresult, hcommits]
    exact h.size_eq
  · rw [hresult, hcommits, hcarried, hqueue, hunsent]
    exact h.current

theorem Catching.commit (h : x.Catching tokenizer) (hsound : x.Sound tokenizer) {change : Change}
    {batch : List Edit} (happly : x.commits.latest.apply batch = .ok (some change)) :
    Catching tokenizer
      { x with commits := x.commits ++ [change], unsent := insert change x.unsent } := by
  have hpublished := Nat.le_trans hsound.published_le hsound.receives.seen_held.version_le
  refine ⟨h.canonical, ?_, fun line text hline hcarried hqueue hunsent => ?_⟩
  · dsimp only
    rw [Commits.snapshot_append hpublished]
    exact h.size_eq
  · have hframe := ((hsound.chained.wellFormed (Nat.le_refl _)).apply_change happly).2.2
    have hout : line ∉ change.changedLines := hunsent change (Set.mem_insert _ _)
    dsimp only at hline
    rw [Commits.latest_concat, hframe.same line hout] at hline
    exact h.current line text hline hcarried hqueue fun own hown =>
      hunsent own (Set.mem_insert_of_mem _ hown)

theorem Catching.publish (h : x.Catching tokenizer) (hsound : x.Sound tokenizer) {consumed : Nat}
    {result : AnalysisResult} (hstoring : x.analyzer.phase = .storingResult consumed result) :
    Catching tokenizer
      { x with
        analyzer :=
          { x.analyzer with result, carried := .empty, phase := .settling consumed } } := by
  obtain ⟨done, hdone, rfl, -⟩ := hsound.working.of_storing hstoring
  have hversion := hdone.snapshotVersion_eq
  have hheld := hsound.receives.seen_held
  have hchained := hsound.chained
  have hwell := hheld.wellFormed hchained
  obtain ⟨pending, flag, rfl⟩ := hdone.eq_complete
  refine ⟨(AnalysisResult.finishedFrom_start h.canonical).roomy.canonical, ?_, ?_⟩
  · have hlength := hchained.length_lines_le hsound.published_le hheld.version_le
    rw [← h.size_eq, hheld.snapshot_eq, hwell.length_lines] at hlength
    dsimp only
    rw [hversion, hheld.snapshot_eq, hwell.length_lines]
    exact (AnalysisResult.size_complete h.canonical).trans (Nat.max_eq_right hlength)
  · intro line text hline _ hqueue hunsent
    -- No commit after the newest snapshot seen has changed the line.
    have hsame : x.analyzer.latestSeen.lines[line]? = some text := by
      rw [← hline, ← hheld.snapshot_eq]
      refine Eq.symm (hchained.line_eq hheld.version_le (Nat.le_refl _)
        fun k change hk hlt hget hin => ?_)
      rcases hsound.receives.covered k change hk hget with ⟨request, hrequest, hlines, -⟩ | hown
      · exact hqueue request hrequest (hlines ▸ hin)
      · exact hunsent change hown hin
    show (x.analyzer.result.complete tokenizer _ x.analyzer.carried pending flag).table.get? line =
      tokenizer line text
    rw [AnalysisResult.get?_complete h.canonical, Pass.retoken, hwell.line?_eq, hsame]
    split
    · rfl
    · rename_i hout
      exact h.current line text hline hout hqueue hunsent

theorem Catching.step (h : x.Catching tokenizer) (hsound : x.Sound tokenizer)
    (hstep : Step tokenizer alone x y) : y.Catching tokenizer := by
  cases hstep with
  | commit batch change happly => exact h.commit hsound happly
  | begin huntold => exact h.congr rfl rfl rfl rfl rfl
  | notice told stage next hstage hnext =>
    obtain ⟨hqueue, -, hresult, hcarried, -, -⟩ := notice_congr hnext
    exact h.congr rfl rfl hqueue hresult hcarried
  | send own told unsent hstage hheld hlines hversion hsent hsubset hsolo =>
    refine ⟨h.canonical, h.size_eq, fun line text hline hcarried hqueue hunsent => ?_⟩
    refine h.current line text hline hcarried (fun request hrequest => ?_) fun change hchange => ?_
    · exact hqueue request (List.mem_append_left _ hrequest)
    · rcases hsent change hchange with rfl | hleft
      · rw [← hlines]
        exact hqueue told (List.mem_append_right _ (List.mem_singleton_self _))
      · exact hunsent change hleft
  | work b hworked =>
    obtain ⟨hmove, -⟩ := hsound.working.step hworked
    cases hmove with
    | drain hwaiting hasked =>
      refine ⟨h.canonical, h.size_eq, fun line text hline hcarried hqueue hunsent => ?_⟩
      have hout : ∀ {p : Prop}, ¬ (line ∈ x.analyzer.carried ∨ p) → line ∉ x.analyzer.carried :=
        fun hnot hin => hnot (.inl hin)
      dsimp only at hcarried
      rw [Analyzer.mem_carried_drain] at hcarried
      refine h.current line text hline (hout hcarried) (fun request hrequest hin => ?_) hunsent
      exact hcarried (.inr ⟨request, hrequest, hin⟩)
    | publish consumed result hstoring => exact h.publish hsound hstoring
    | proceed | storePatch | settle => exact h.congr rfl rfl rfl rfl rfl
  | take => exact h.congr rfl rfl rfl rfl rfl

/-- With nothing left on its way, the table is that of the latest commit. -/
theorem Catching.tokenizes (h : x.Catching tokenizer) (hunsent : x.unsent = ∅)
    (hcarried : x.analyzer.carried = .empty) (hqueue : x.analyzer.queue = [])
    (hversion : x.analyzer.result.snapshotVersion = x.commits.length) :
    x.analyzer.result.table.Tokenizes tokenizer x.commits.latest.lines := by
  refine ⟨h.canonical, ?_, fun line text hline => ?_⟩
  · rw [h.size_eq, hversion, Commits.latest]
  · refine h.current line text hline ?_ ?_ ?_
    · simp [hcarried]
    · simp [hqueue]
    · simp [hunsent]

end Relay

end LineTokens
