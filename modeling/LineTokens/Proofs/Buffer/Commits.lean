import LineTokens.Proofs.Buffer.Apply
import Mathlib.Data.Nat.Basic
import Mathlib.Data.Nat.Init
import Mathlib.Order.Basic

/-! The commits of a buffer that starts empty, in order. Each is what some batch makes of the
snapshot that the one before it left, so the version of a snapshot is its place among them, and a
line that no commit in between has changed is the same in two snapshots. -/

namespace LineTokens

/-- The changes committed to a buffer, the first one first. -/
abbrev Commits := List Change

namespace Commits

/-- The snapshot of a version: that of the commit which made it, or the empty one. -/
def snapshot (commits : Commits) : Nat → Snapshot
  | 0 => .empty
  | k + 1 => (commits[k]?.map Change.snapshot).getD .empty

/-- The snapshot after all commits. -/
def latest (commits : Commits) : Snapshot := commits.snapshot commits.length

/-- Each commit comes from a batch applied to the snapshot before it. -/
def Chained (commits : Commits) : Prop :=
  ∀ k change, commits[k]? = some change →
    ∃ batch, (commits.snapshot k).apply batch = .ok (some change)

/-- The snapshot is that of its version. -/
structure Held (commits : Commits) (s : Snapshot) : Prop where
  version_le : s.version ≤ commits.length
  snapshot_eq : commits.snapshot s.version = s

theorem snapshot_succ {commits : Commits} {k : Nat} {change : Change}
    (h : commits[k]? = some change) : commits.snapshot (k + 1) = change.snapshot := by
  simp [snapshot, h]

theorem snapshot_append {commits : Commits} {k : Nat} (h : k ≤ commits.length) (more : Commits) :
    snapshot (commits ++ more) k = commits.snapshot k := by
  cases k with
  | zero => rfl
  | succ k => rw [snapshot, snapshot, List.getElem?_append_left h]

@[simp] theorem latest_concat (commits : Commits) (change : Change) :
    latest (commits ++ [change]) = change.snapshot := by
  rw [latest, List.length_append, List.length_singleton]
  exact snapshot_succ (by simp)

theorem chained_nil : Chained [] := by
  intro k change h
  simp at h

theorem Chained.concat {commits : Commits} (h : commits.Chained) {batch : List Edit}
    {change : Change} (happly : commits.latest.apply batch = .ok (some change)) :
    Chained (commits ++ [change]) := by
  intro k other hk
  rcases Nat.lt_trichotomy k commits.length with hlt | rfl | hgt
  · rw [List.getElem?_append_left hlt] at hk
    rw [snapshot_append hlt.le]
    exact h k other hk
  · obtain rfl : change = other := by simpa using hk
    rw [snapshot_append le_rfl]
    exact ⟨batch, happly⟩
  · rw [List.getElem?_eq_none (by simp; omega)] at hk
    cases hk

namespace Chained

variable {commits : Commits}

theorem wellFormed_version (h : commits.Chained) {k : Nat} (hk : k ≤ commits.length) :
    (commits.snapshot k).WellFormed ∧ (commits.snapshot k).version = k := by
  induction k with
  | zero => exact ⟨Snapshot.wellFormed_empty, rfl⟩
  | succ k ih =>
    obtain ⟨hwell, hversion⟩ := ih (by omega)
    have hget : commits[k]? = some commits[k] := List.getElem?_eq_getElem hk
    obtain ⟨batch, happly⟩ := h k _ hget
    obtain ⟨hwell', hversion', -⟩ := hwell.apply_change happly
    rw [snapshot_succ hget]
    exact ⟨hwell', by rw [hversion', hversion]⟩

theorem wellFormed (h : commits.Chained) {k : Nat} (hk : k ≤ commits.length) :
    (commits.snapshot k).WellFormed :=
  (h.wellFormed_version hk).1

theorem version_eq (h : commits.Chained) {k : Nat} (hk : k ≤ commits.length) :
    (commits.snapshot k).version = k :=
  (h.wellFormed_version hk).2

theorem held (h : commits.Chained) {k : Nat} (hk : k ≤ commits.length) :
    commits.Held (commits.snapshot k) :=
  ⟨(h.version_eq hk).trans_le hk, congrArg _ (h.version_eq hk)⟩

theorem held_latest (h : commits.Chained) : commits.Held commits.latest := h.held le_rfl

/-- A commit is found under the number before its version. -/
theorem getElem?_of_mem (h : commits.Chained) {change : Change} (hmem : change ∈ commits) :
    ∃ k, change.snapshot.version = k + 1 ∧ commits[k]? = some change := by
  obtain ⟨k, hk⟩ := List.getElem?_of_mem hmem
  have hlt : k < commits.length := by
    by_contra hge
    rw [List.getElem?_eq_none (by omega)] at hk
    cases hk
  exact ⟨k, by rw [← snapshot_succ hk, h.version_eq hlt], hk⟩

theorem frame (h : commits.Chained) {k : Nat} {change : Change} (hk : commits[k]? = some change) :
    LineFrame change.changedLines (commits.snapshot k).lines (commits.snapshot (k + 1)).lines := by
  have hlt : k < commits.length := (List.getElem?_eq_some_iff.mp hk).1
  obtain ⟨batch, happly⟩ := h k change hk
  rw [snapshot_succ hk]
  exact ((h.wellFormed hlt.le).apply_change happly).2.2

theorem length_lines_le (h : commits.Chained) {a b : Nat} (hab : a ≤ b) (hb : b ≤ commits.length) :
    (commits.snapshot a).lines.length ≤ (commits.snapshot b).lines.length := by
  induction b, hab using Nat.le_induction with
  | base => exact le_rfl
  | succ b hab ih =>
    exact (ih (by omega)).trans (h.frame (List.getElem?_eq_getElem hb)).length_le

/-- Later commits leave at least as many lines. -/
theorem lineCount_le_of_prefix (h : commits.Chained) {before : Commits}
    (hgrow : before <+: commits) : before.latest.lineCount ≤ commits.latest.lineCount := by
  have hlength := hgrow.length_le
  obtain ⟨more, rfl⟩ := hgrow
  have hlatest : before.latest = snapshot (before ++ more) before.length :=
    (snapshot_append le_rfl more).symm
  rw [hlatest, latest, ← (h.wellFormed hlength).length_lines, ← (h.wellFormed le_rfl).length_lines]
  exact h.length_lines_le hlength le_rfl

/-- A line that no commit between two versions has changed is the same in both. -/
theorem line_eq (h : commits.Chained) {a b line : Nat} (hab : a ≤ b) (hb : b ≤ commits.length)
    (hline : ∀ k change, a ≤ k → k < b → commits[k]? = some change →
      line ∉ change.changedLines) :
    (commits.snapshot b).lines[line]? = (commits.snapshot a).lines[line]? := by
  induction b, hab using Nat.le_induction with
  | base => rfl
  | succ b hab ih =>
    have hget : commits[b]? = some commits[b] := List.getElem?_eq_getElem hb
    rw [(h.frame hget).same line (hline b _ hab (Nat.lt_succ_self b) hget)]
    exact ih (by omega) fun k change hak hkb => hline k change hak (by omega)

end Chained

namespace Held

variable {commits : Commits} {s t : Snapshot}

theorem append (h : commits.Held s) (more : Commits) : Held (commits ++ more) s :=
  ⟨by have := h.version_le; simp; omega, by rw [snapshot_append h.version_le, h.snapshot_eq]⟩

theorem wellFormed (h : commits.Held s) (hc : commits.Chained) : s.WellFormed := by
  rw [← h.snapshot_eq]
  exact hc.wellFormed h.version_le

theorem empty : commits.Held .empty := ⟨Nat.zero_le _, rfl⟩

end Held

end Commits

end LineTokens
