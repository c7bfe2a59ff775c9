import LineTokens.Proofs.Analysis.Interleaved

/-! Two results on every interleaving. With one writer, each published table is exact for the
snapshot that it names; with any number of writers, the last table published is that of the buffer's
snapshot, once all commits have been told and all requests settled. -/

namespace LineTokens

namespace Concurrent

variable {tokenizer : Tokenizer} {c : Concurrent} {passes : Nat}

/-- Between commits, an idle analyzer has published the table of the buffer's snapshot. -/
theorem Proper.settled (h : c.Proper tokenizer passes) (htold : c.writers.allTold = true)
    (hidle : c.analyzer.isIdle = true) :
    c.analyzer.carried = .empty ∧
      c.analyzer.result.snapshotVersion = c.writers.cell.snapshot.version ∧
      c.analyzer.result.table.Tokenizes tokenizer c.writers.cell.snapshot.lines := by
  have hunsent := Writers.unsent_eq_empty htold
  obtain ⟨hcarried, hqueue, hversion⟩ :=
    h.sound.settled hunsent (Writers.stage?_eq_none htold) hidle
  have htable := h.catching.tokenizes hunsent hcarried hqueue hversion
  have hlatest : c.writers.relay.commits.latest.version = c.writers.relay.commits.length :=
    h.sound.chained.version_eq (Nat.le_refl _)
  have hcell : c.writers.cell.snapshot = c.writers.relay.commits.latest := h.orderly.cell_eq
  rw [hcell]
  exact ⟨hcarried, hversion.trans hlatest.symm, htable⟩

/-- With one writer, every published table is exact for the snapshot that it names, however the
commits are interleaved with the steps of the worker and of the client. -/
theorem published_table_exact {batches : List (List Edit)}
    (hran : Runs tokenizer (start .empty .start [batches]) passes c) :
    (∃ snapshot ∈ c.writers.snapshots,
      snapshot.version = c.analyzer.result.snapshotVersion) ∧
    (∀ snapshot ∈ c.writers.snapshots, snapshot.version = c.analyzer.result.snapshotVersion →
      c.analyzer.result.table.size = snapshot.lineCount ∧
        c.analyzer.result.table.slots = snapshot.lines.mapIdx tokenizer) ∧
    c.analyzer.result.snapshotVersion ≤ c.writers.cell.snapshot.version ∧
    (∀ more d, Runs tokenizer c more d →
      c.analyzer.result.version ≤ d.analyzer.result.version ∧
        c.analyzer.result.snapshotVersion ≤ d.analyzer.result.snapshotVersion) ∧
    c.analyzer.result.version = passes ∧
    (c.writers.allTold = true → c.analyzer.isIdle = true →
      c.analyzer.result.snapshotVersion = c.writers.cell.snapshot.version) := by
  have hproper := proper_of_runs hran
  have hchained := hproper.sound.chained
  have hexact := hproper.exact (by rw [hran.length_eq]; rfl)
  have hle : c.analyzer.result.snapshotVersion ≤ c.writers.commits.length :=
    Nat.le_trans hproper.sound.published_le hproper.sound.receives.seen_held.version_le
  refine ⟨?_, fun snapshot hmem hversion => ?_, ?_, fun more d hmore => ?_, hproper.version_eq,
    fun htold hidle => (hproper.settled htold hidle).2.1⟩
  · refine ⟨c.writers.commits.snapshot c.analyzer.result.snapshotVersion, ?_,
      hchained.version_eq hle⟩
    exact (Writers.mem_snapshots_iff hproper.orderly).mpr (hchained.held hle)
  · have hheld := (Writers.mem_snapshots_iff hproper.orderly).mp hmem
    have htokenizes := hexact.tokenizes
    have hnamed : c.writers.commits.snapshot c.analyzer.result.snapshotVersion = snapshot :=
      hversion ▸ hheld.snapshot_eq
    rw [show c.writers.relay.commits.snapshot c.writers.relay.analyzer.result.snapshotVersion =
      snapshot from hnamed] at htokenizes
    exact ⟨htokenizes.size_eq.trans (hheld.wellFormed hchained).length_lines, htokenizes.slots_eq⟩
  · rw [hproper.orderly.cell_eq, Commits.latest, hproper.orderly.chained.version_eq (Nat.le_refl _)]
    exact hle
  · obtain ⟨-, hgrows⟩ := hmore.proper hproper
    exact ⟨hgrows.version_le, hgrows.snapshotVersion_le⟩

theorem published_table_exact_two_commits :
    let first := start .empty .start [[[.insertLine 0 ['a', '!']], [⟨0, 2, 0, ['b']⟩]]]
    let c := first.runRounds .firstBang 40
    Runs .firstBang first 2 c ∧ c.writers.cell.snapshot.version = 2 ∧
      c.analyzer.result.snapshotVersion = 2 ∧
      c.analyzer.result.table.slots = [some ⟨0, 1, 1, .fails⟩] := by
  intro first c
  have hreached : Reachable .firstBang first c := Reachable.start.runRounds 40
  have hcell : c.writers.cell.snapshot.version = 2 := by decide +kernel
  have hlines : c.writers.cell.snapshot.lines = [['a', '!', 'b']] := by decide +kernel
  obtain ⟨passes, hran⟩ := reachable_iff_runs.mp hreached
  obtain ⟨-, hexact, -, -, hpasses, hidle⟩ := published_table_exact hran
  have hversion : c.analyzer.result.snapshotVersion = 2 :=
    (hidle (by decide +kernel) (by decide +kernel)).trans hcell
  have hmem : c.writers.cell.snapshot ∈ c.writers.snapshots := by decide +kernel
  have htwo : c.analyzer.result.version = 2 := by decide +kernel
  obtain ⟨-, hslots⟩ := hexact _ hmem (hcell.trans hversion.symm)
  rw [hlines] at hslots
  exact ⟨hpasses.symm.trans htwo ▸ hran, hcell, hversion, hslots⟩

/-- Any number of writers: once all commits have been told and all requests settled, no line is
carried, and the published table has the tokens of every line of the buffer's snapshot. -/
theorem writers_converge {batches : List (List (List Edit))}
    (hreached : Reachable tokenizer (start .empty .start batches) c)
    (htold : c.writers.allTold = true) (hsettled : c.analyzer.settled = c.analyzer.submitted) :
    c.analyzer.carried = .empty ∧
    c.analyzer.result.table.size = c.writers.cell.snapshot.lineCount ∧
    c.analyzer.result.table.slots = c.writers.cell.snapshot.lines.mapIdx tokenizer ∧
    c.analyzer.result.snapshotVersion = c.writers.cell.snapshot.version := by
  obtain ⟨passes, hran⟩ := reachable_iff_runs.mp hreached
  have hproper := proper_of_runs hran
  have hidle : c.analyzer.isIdle = true := by simp [Analyzer.isIdle, hsettled]
  obtain ⟨hcarried, hversion, htable⟩ := hproper.settled htold hidle
  have hwell : c.writers.cell.snapshot.WellFormed := by
    rw [hproper.orderly.cell_eq]
    exact hproper.orderly.chained.wellFormed (Nat.le_refl _)
  exact ⟨hcarried, htable.size_eq.trans hwell.length_lines, htable.slots_eq, hversion⟩

theorem writers_converge_racing :
    let first := start .empty .start [[[.insertLine 0 ['a', '!']], [⟨0, 2, 0, ['b']⟩]],
      [[.insertLine 0 ['c']], [⟨0, 0, 1, ['!']⟩]]]
    let c := first.runRounds .firstBang 60
    Reachable .firstBang first c ∧ c.writers.allTold = true ∧
      c.analyzer.settled = c.analyzer.submitted ∧
      c.writers.cell.snapshot.lines = [['!', 'a', 'b', '!']] ∧
      c.analyzer.result.table.slots = [some ⟨0, 0, 1, .fails⟩] := by
  intro first c
  have hreached : Reachable .firstBang first c := Reachable.start.runRounds 60
  have htold : c.writers.allTold = true := by decide +kernel
  have hsettled : c.analyzer.settled = c.analyzer.submitted := by decide +kernel
  have hlines : c.writers.cell.snapshot.lines = [['!', 'a', 'b', '!']] := by decide +kernel
  obtain ⟨-, -, hslots, -⟩ := writers_converge hreached htold hsettled
  rw [hlines] at hslots
  exact ⟨hreached, htold, hsettled, hlines, hslots⟩

end Concurrent

end LineTokens
