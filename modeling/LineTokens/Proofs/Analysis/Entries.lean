import LineTokens.Proofs.Analysis.Interleaved
import LineTokens.Proofs.Buffer.Framing

/-! Passes with something to analyse. A request names the lines of its commit, at least one, and
brings a snapshot in which they are there. So in any interleaving of writers, worker and client, the
patch of a completed pass has an entry. -/

namespace LineTokens

/-- A commit has changed some line. -/
theorem Commits.Chained.exists_mem_changedLines {commits : Commits} (h : commits.Chained)
    {change : Change} (hmem : change ∈ commits) : ∃ line, line ∈ change.changedLines := by
  obtain ⟨k, -, hk⟩ := h.getElem?_of_mem hmem
  obtain ⟨batch, happly⟩ := h k change hk
  obtain ⟨-, hchanged⟩ := Snapshot.apply_eq_some happly
  by_contra hnone
  rw [LineSet.isEmpty_iff.mpr fun line hline => hnone ⟨line, hline⟩] at hchanged
  cases hchanged

namespace Analyzer

variable {tokenizer : Tokenizer} {a b : Analyzer} {commits more : Commits} {unsent : Set Change}

/-- Each request has a commit whose lines it names and whose version its snapshot has reached, the
lines carried are there in the newest snapshot seen, and a pass has a line carried. -/
structure Asked (commits : Commits) (a : Analyzer) : Prop where
  queued : ∀ request ∈ a.queue, ∃ own ∈ commits, request.changedLines = own.changedLines ∧
    own.snapshot.version ≤ request.snapshot.version
  carried_lt : ∀ line ∈ a.carried, line < a.latestSeen.lineCount
  carries : ¬a.phase.Over → ∃ line, line ∈ a.carried

namespace Asked

theorem start : Asked [] .start :=
  ⟨fun _ hmem => absurd hmem List.not_mem_nil, fun _ hmem => absurd (LineSet.mem_empty.mp hmem) id,
    fun hover => absurd trivial hover⟩

theorem congr (h : a.Asked commits) (hqueue : b.queue = a.queue) (hnewest : b.newest = a.newest)
    (hcarried : b.carried = a.carried) (hphase : a.phase.Over → b.phase.Over) :
    b.Asked commits := by
  refine ⟨hqueue ▸ h.queued, ?_, fun hover => ?_⟩
  · rw [hcarried, latestSeen_congr hnewest]
    exact h.carried_lt
  · rw [hcarried]
    exact h.carries fun hbefore => hover (hphase hbefore)

theorem commit (h : a.Asked commits) (change : Change) : a.Asked (commits ++ [change]) := by
  refine ⟨fun request hmem => ?_, h.carried_lt, h.carries⟩
  obtain ⟨own, hown, hnames⟩ := h.queued request hmem
  exact ⟨own, List.mem_append_left _ hown, hnames⟩

theorem notice (h : a.Asked commits) {own told : Change} (hown : own ∈ commits)
    (hlines : told.changedLines = own.changedLines)
    (hversion : own.snapshot.version ≤ told.snapshot.version) (stage : NoticeStage) :
    (Analyzer.notice told stage a).1.Asked commits := by
  cases stage with
  | install | cancel | submit => exact h.congr rfl rfl rfl id
  | send =>
    refine ⟨fun request hmem => ?_, h.carried_lt, h.carries⟩
    rcases List.mem_append.mp hmem with hold | hnew
    · exact h.queued request hold
    · rw [List.mem_singleton.mp hnew]
      exact ⟨own, hown, hlines, hversion⟩

/-- The lines drained are there in the newest of the snapshots drained. -/
theorem drain (h : a.Asked commits) (hchained : commits.Chained)
    (hreceives : a.Receives commits unsent) (hwaiting : a.phase = .waiting)
    (hasked : a.queue ≠ []) : a.drain.Asked commits := by
  obtain ⟨-, hle, hall⟩ := a.latestSeen_drain
  have hheld : commits.Held a.drain.latestSeen :=
    (hreceives.move (.drain hwaiting hasked)).seen_held
  refine ⟨fun _ hmem => absurd hmem List.not_mem_nil, fun line hline => ?_, fun _ => ?_⟩
  · rcases mem_carried_drain.mp hline with hold | ⟨request, hrequest, hline⟩
    · have hcount := hchained.lineCount_le hle hheld.version_le
      rw [hreceives.seen_held.snapshot_eq, hheld.snapshot_eq] at hcount
      exact (h.carried_lt line hold).trans_le hcount
    · obtain ⟨own, hown, hlines, hversion⟩ := h.queued request hrequest
      obtain ⟨k, hk, hget⟩ := hchained.getElem?_of_mem hown
      have hnewest := hall request hrequest
      have hlt := hchained.lt_lineCount hget (b := a.drain.latestSeen.version) (by omega)
        hheld.version_le (hlines ▸ hline)
      rwa [hheld.snapshot_eq] at hlt
  · obtain ⟨request, hrequest⟩ := List.exists_mem_of_ne_nil _ hasked
    obtain ⟨own, hown, hlines, -⟩ := h.queued request hrequest
    obtain ⟨line, hline⟩ := hchained.exists_mem_changedLines hown
    exact ⟨line, mem_carried_drain.mpr (.inr ⟨request, hrequest, hlines ▸ hline⟩)⟩

theorem move (h : a.Asked commits) (hchained : commits.Chained)
    (hreceives : a.Receives commits unsent) (hmove : WorkerMove a b) : b.Asked commits := by
  cases hmove with
  | drain hwaiting hasked => exact h.drain hchained hreceives hwaiting hasked
  | proceed phase hunderway =>
    refine h.congr rfl rfl rfl fun hover => ?_
    cases hphase : a.phase <;> rw [hphase] at hunderway hover <;> contradiction
  | storePatch consumed result patch hstoring =>
    refine h.congr rfl rfl rfl fun hover => ?_
    rw [hstoring] at hover
    exact hover
  | publish consumed result hstoring =>
    exact ⟨h.queued, fun _ hmem => absurd (LineSet.mem_empty.mp hmem) id,
      fun hover => absurd trivial hover⟩
  | settle consumed hsettling => exact h.congr rfl rfl rfl fun _ => trivial

/-- A pass that completes has an entry for the lines carried, of which there are some. -/
theorem entries_ne_nil (h : a.Asked commits) (hchained : commits.Chained)
    (hheld : commits.Held a.latestSeen) (hover : ¬a.phase.Over) {done : Pass}
    (hdone : a.Completes tokenizer done) : done.patch.entries ≠ [] := by
  obtain ⟨line, hline⟩ := h.carries hover
  obtain ⟨consumed, flag, rfl⟩ := hdone.eq_complete
  have hexists := (hheld.wellFormed hchained).isSome_line?_iff.mpr (h.carried_lt line hline)
  have hentered : line ∈ (a.result.complete tokenizer a.latestSeen a.carried consumed
      flag).patch.entries.map (·.line) := by
    rw [AnalysisResult.lines_complete]
    exact List.mem_filter.mpr ⟨hline, hexists⟩
  intro hnil
  rw [hnil] at hentered
  cases hentered

end Asked

end Analyzer

namespace Writers

variable {s t : Writers Analyzer NoticeStage} {own : Change}

theorem Orderly.mem_commits (h : s.Orderly) (hown : own ∈ s.unsent) : own ∈ s.commits := by
  obtain ⟨i, w, hw, hunsent⟩ := hown
  have hfits := h.fits i w hw
  cases hphase : w.phase with
  | idle | loaded | built | releasing =>
    rw [hphase] at hunsent
    cases hunsent
  | committed own =>
    rw [hphase] at hunsent hfits
    cases hunsent
    exact hfits
  | locked own | telling own =>
    rw [hphase] at hunsent hfits
    cases hunsent
    exact hfits.1

theorem Effect.asked (h : Effect Analyzer.observers s t) (horderly : s.Orderly)
    (hasked : s.observed.Asked s.commits) : t.observed.Asked t.commits := by
  cases h with
  | silent hcommits _ _ hobserved | begin _ _ hcommits _ _ _ hobserved =>
    rw [hcommits, hobserved]
    exact hasked
  | commit batch change happly hcommits _ _ hobserved =>
    rw [hcommits, hobserved]
    exact hasked.commit change
  | tell own told stage hannounces hown hcommits _ hobserved =>
    rw [hcommits, hobserved]
    exact hasked.notice (horderly.mem_commits hown) hannounces.lines_eq hannounces.version_le stage

end Writers

namespace Concurrent

variable {tokenizer : Tokenizer} {c d : Concurrent} {actor : Actor} {passes : Nat}

theorem asked_start (batches : List (List (List Edit))) :
    (start .empty .start batches).analyzer.Asked
      (start .empty .start batches).writers.commits :=
  .start

theorem asked_step (h : c.analyzer.Asked c.writers.commits) (hproper : c.Proper tokenizer passes)
    (hstep : c.step tokenizer actor = some d) : d.analyzer.Asked d.writers.commits := by
  cases actor with
  | writer i =>
    obtain ⟨t, ht, rfl⟩ := Option.map_eq_some_iff.mp hstep
    obtain ⟨-, heffect⟩ := effect_step hproper.orderly ht
    exact heffect.asked hproper.orderly h
  | worker =>
    obtain ⟨b, hb, rfl⟩ := Option.map_eq_some_iff.mp hstep
    obtain ⟨hmove, -⟩ := hproper.sound.working.step hb
    exact h.move hproper.orderly.chained hproper.sound.receives hmove
  | client =>
    obtain rfl := Option.some.inj hstep
    rcases c.writers_clientStep with hwriters | hwriters
    · rw [analyzer, hwriters]
      exact h
    · rw [analyzer, hwriters]
      exact h.congr rfl rfl rfl id

end Concurrent

end LineTokens
