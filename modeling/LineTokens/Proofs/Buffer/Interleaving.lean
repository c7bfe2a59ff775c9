import LineTokens.Buffer.Writers
import LineTokens.Proofs.Buffer.Commits
import Mathlib.Data.Set.Insert

/-! Writers whose steps are interleaved in any way, at a buffer that starts empty. `Orderly` says
what a writer in each phase may rely on: a loaded cell has not changed while its stamp is the same,
a change committed stands in the history, and only the holder of the lock tells the observers.
`Effect` lists what a step can do to the commits, the notices to come and the observers. -/

namespace LineTokens

variable {ω σ : Type}

def BufferEvent.commit? : BufferEvent → Option Change
  | .committed _ _ _ stored changed => some ⟨stored.snapshot, changed⟩
  | _ => none

namespace WriterPhase

/-- A committed change of which the observers have not been told to the end. -/
def unsent? : WriterPhase σ → Option Change
  | committed own | locked own | telling own _ _ => some own
  | _ => none

/-- The stage in which the observers are told. -/
def stage? : WriterPhase σ → Option σ
  | telling _ _ stage => some stage
  | _ => none

end WriterPhase

namespace Writers

def commits (s : Writers ω σ) : Commits := (s.history.filterMap BufferEvent.commit?).reverse

/-- The committed changes of which some writer has still to tell the observers. -/
def unsent (s : Writers ω σ) : Set Change :=
  {own | ∃ (i : Nat) (w : Writer σ), s.writers[i]? = some w ∧ w.phase.unsent? = some own}

/-- The same without those of writer `i`. -/
def unsentBut (s : Writers ω σ) (i : Nat) : Set Change :=
  {own | ∃ (j : Nat) (w : Writer σ), j ≠ i ∧ s.writers[j]? = some w ∧ w.phase.unsent? = some own}

/-- The stage in which the holder of the lock tells the observers. -/
def stage? (s : Writers ω σ) : Option σ :=
  s.lock.bind fun i => s.writers[i]?.bind (·.phase.stage?)

/-- The cell was loaded before, and is the current one while its stamp is. -/
structure Saw (s : Writers ω σ) (seen : Cell) : Prop where
  stamp_lt : seen.stamp < s.nextStamp
  eq_cell : s.cell.stamp = seen.stamp → s.cell = seen

/-- What the observers are told names the lines of the commit, and a snapshot that is not older. -/
structure Announces (s : Writers ω σ) (own told : Change) : Prop where
  lines_eq : told.changedLines = own.changedLines
  held : s.commits.Held told.snapshot
  version_le : own.snapshot.version ≤ told.snapshot.version

/-- What writer `i` may rely on in a phase. -/
def Fits (s : Writers ω σ) (i : Nat) : WriterPhase σ → Prop
  | .idle => True
  | .loaded seen => s.Saw seen
  | .built seen next => s.Saw seen ∧ ∃ batch, seen.snapshot.apply batch = .ok (some next)
  | .committed own => own ∈ s.commits
  | .locked own => own ∈ s.commits ∧ s.lock = some i
  | .telling own told _ => own ∈ s.commits ∧ s.lock = some i ∧ s.Announces own told
  | .releasing _ => s.lock = some i

/-- The cell holds the latest commit, and every writer is in order. -/
structure Orderly (s : Writers ω σ) : Prop where
  chained : s.commits.Chained
  cell_eq : s.cell.snapshot = s.commits.latest
  stamp_lt : s.cell.stamp < s.nextStamp
  fits : ∀ i w, s.writers[i]? = some w → s.Fits i w.phase

variable {obs : Observers ω σ} {s t : Writers ω σ} {i : Nat} {w w' : Writer σ}

/-! ### One writer set to another phase -/

theorem commits_record (s : Writers ω σ) (event : BufferEvent) :
    (s.record event).commits = s.commits ++ event.commit?.toList := by
  simp only [commits, record, List.filterMap_cons]
  cases event.commit? <;> simp

theorem commits_record_of_none {event : BufferEvent} (s : Writers ω σ)
    (h : event.commit? = none) : (s.record event).commits = s.commits := by
  rw [commits_record, h]
  exact List.append_nil _

theorem unsent_eq (hw : s.writers[i]? = some w) :
    s.unsent = {own | w.phase.unsent? = some own} ∪ s.unsentBut i := by
  ext own
  constructor
  · rintro ⟨j, v, hv, hown⟩
    by_cases hij : j = i
    · subst hij
      obtain rfl := Option.some.inj (hw.symm.trans hv)
      exact .inl hown
    · exact .inr ⟨j, v, hij, hv, hown⟩
  · rintro (hown | ⟨j, v, -, hv, hown⟩)
    · exact ⟨i, w, hw, hown⟩
    · exact ⟨j, v, hv, hown⟩

theorem getElem?_set_self (hw : s.writers[i]? = some w) (ht : t.writers = s.writers.set i w') :
    t.writers[i]? = some w' := by
  rw [ht, List.getElem?_set_self (List.getElem?_eq_some_iff.mp hw).1]

theorem getElem?_set_ne {j : Nat} (hij : j ≠ i) (ht : t.writers = s.writers.set i w') :
    t.writers[j]? = s.writers[j]? := by
  rw [ht, List.getElem?_set_ne (Ne.symm hij)]

theorem unsentBut_set (ht : t.writers = s.writers.set i w') : t.unsentBut i = s.unsentBut i := by
  ext own
  constructor
  · rintro ⟨j, v, hij, hv, hown⟩
    exact ⟨j, v, hij, (getElem?_set_ne hij ht).symm.trans hv, hown⟩
  · rintro ⟨j, v, hij, hv, hown⟩
    exact ⟨j, v, hij, (getElem?_set_ne hij ht).trans hv, hown⟩

theorem unsent_set (hw : s.writers[i]? = some w) (ht : t.writers = s.writers.set i w') :
    t.unsent = {own | w'.phase.unsent? = some own} ∪ s.unsentBut i := by
  rw [unsent_eq (getElem?_set_self hw ht), unsentBut_set ht]

theorem unsent_set_same (hw : s.writers[i]? = some w) (ht : t.writers = s.writers.set i w')
    (hsame : w'.phase.unsent? = w.phase.unsent?) : t.unsent = s.unsent := by
  rw [unsent_set hw ht, unsent_eq hw, hsame]

theorem stage?_set_same (hw : s.writers[i]? = some w) (ht : t.writers = s.writers.set i w')
    (hlock : t.lock = s.lock) (hsame : w'.phase.stage? = w.phase.stage?) :
    t.stage? = s.stage? := by
  rw [stage?, stage?, hlock]
  cases s.lock with
  | none => rfl
  | some j =>
    by_cases hij : j = i
    · subst hij
      simp [getElem?_set_self hw ht, hw, hsame]
    · simp [getElem?_set_ne hij ht]

theorem stage?_of_lock (hlock : s.lock = some i) (hw : s.writers[i]? = some w) :
    s.stage? = w.phase.stage? := by
  rw [stage?, hlock, Option.bind_some, hw, Option.bind_some]

theorem stage?_set {next : Option σ} (hw : s.writers[i]? = some w)
    (ht : t.writers = s.writers.set i w') (hlock : t.lock = some i)
    (hnext : w'.phase.stage? = next) : t.stage? = next :=
  (stage?_of_lock hlock (getElem?_set_self hw ht)).trans hnext

theorem Fits.mono {phase : WriterPhase σ} (h : s.Fits i phase)
    (hsaw : ∀ seen, s.Saw seen → t.Saw seen) {more : Commits}
    (hcommits : t.commits = s.commits ++ more) (hlock : s.lock = some i → t.lock = some i) :
    t.Fits i phase := by
  have hmem : ∀ own, own ∈ s.commits → own ∈ t.commits :=
    fun own hown => hcommits ▸ List.mem_append_left more hown
  cases phase with
  | idle => trivial
  | loaded seen => exact hsaw seen h
  | built seen next => exact ⟨hsaw seen h.1, h.2⟩
  | committed own => exact hmem own h
  | locked own => exact ⟨hmem own h.1, hlock h.2⟩
  | telling own told stage =>
    obtain ⟨hown, hl, hannounces⟩ := h
    exact ⟨hmem own hown, hlock hl, hannounces.lines_eq, hcommits ▸ hannounces.held.append more,
      hannounces.version_le⟩
  | releasing own => exact hlock h

/-- The other writers stay in order when one is set to a phase. -/
theorem Orderly.fits_set (h : s.Orderly) (hw : s.writers[i]? = some w)
    (ht : t.writers = s.writers.set i w') (hsaw : ∀ seen, s.Saw seen → t.Saw seen)
    {more : Commits} (hcommits : t.commits = s.commits ++ more)
    (hlock : ∀ j, j ≠ i → s.lock = some j → t.lock = some j) (hfits : t.Fits i w'.phase) :
    ∀ j v, t.writers[j]? = some v → t.Fits j v.phase := by
  intro j v hv
  by_cases hij : j = i
  · subst hij
    obtain rfl := Option.some.inj ((getElem?_set_self hw ht).symm.trans hv)
    exact hfits
  · rw [getElem?_set_ne hij ht] at hv
    exact (h.fits j v hv).mono hsaw hcommits (hlock j hij)

/-- A step that changes nothing but a writer, the lock and the observers. -/
theorem Orderly.set (h : s.Orderly) (hw : s.writers[i]? = some w)
    (ht : t.writers = s.writers.set i w') (hcell : t.cell = s.cell)
    (hstamp : t.nextStamp = s.nextStamp) (hcommits : t.commits = s.commits)
    (hlock : ∀ j, j ≠ i → s.lock = some j → t.lock = some j)
    (hfits : t.Fits i w'.phase) : t.Orderly := by
  have hsaw : ∀ seen, s.Saw seen → t.Saw seen :=
    fun seen hs => ⟨hstamp ▸ hs.stamp_lt, fun heq => hcell.trans (hs.eq_cell (hcell ▸ heq))⟩
  refine ⟨hcommits ▸ h.chained, ?_, ?_,
    h.fits_set hw ht hsaw (hcommits.trans (List.append_nil _).symm) hlock hfits⟩
  · rw [hcell, hcommits, h.cell_eq]
  · rw [hcell, hstamp]
    exact h.stamp_lt

/-- The order of the writers does not depend on what the observers make of the changes. -/
theorem Orderly.observe (h : s.Orderly) (observed : ω) : Orderly { s with observed } :=
  ⟨h.chained, h.cell_eq, h.stamp_lt, fun i w hw =>
    (h.fits i w hw).mono (fun _ hs => ⟨hs.stamp_lt, hs.eq_cell⟩) (List.append_nil _).symm id⟩

/-! ### Steps -/

/-- What one step can do, apart from what a writer has in mind. -/
inductive Effect (obs : Observers ω σ) (s t : Writers ω σ) : Prop
  | silent (commits_eq : t.commits = s.commits) (unsent_eq : t.unsent = s.unsent)
      (stage_eq : t.stage? = s.stage?) (observed_eq : t.observed = s.observed)
  | commit (batch : List Edit) (change : Change)
      (applied : s.commits.latest.apply batch = .ok (some change))
      (commits_eq : t.commits = s.commits ++ [change])
      (unsent_eq : t.unsent = insert change s.unsent)
      (stage_eq : t.stage? = s.stage?) (observed_eq : t.observed = s.observed)
  | begin (first : σ) (first_eq : obs.first = some first) (commits_eq : t.commits = s.commits)
      (unsent_eq : t.unsent = s.unsent) (before : s.stage? = none) (after : t.stage? = some first)
      (observed_eq : t.observed = s.observed)
  | tell (own told : Change) (stage : σ) (announces : s.Announces own told)
      (own_mem : own ∈ s.unsent) (commits_eq : t.commits = s.commits) (before : s.stage? = some stage)
      (observed_eq : t.observed = (obs.call told stage s.observed).1)
      (after : t.stage? = (obs.call told stage s.observed).2)
      (goesOn : (obs.call told stage s.observed).2 ≠ none → t.unsent = s.unsent)
      (ends : (obs.call told stage s.observed).2 = none →
        (∀ change ∈ s.unsent, change = own ∨ change ∈ t.unsent) ∧ t.unsent ⊆ s.unsent ∧
          (s.writers.length ≤ 1 → t.unsent = ∅))

theorem unsentBut_eq_empty (hw : s.writers[i]? = some w) (hsolo : s.writers.length ≤ 1) :
    s.unsentBut i = ∅ := by
  refine Set.eq_empty_iff_forall_notMem.mpr ?_
  rintro own ⟨j, v, hij, hv, -⟩
  have hi := (List.getElem?_eq_some_iff.mp hw).1
  have hj := (List.getElem?_eq_some_iff.mp hv).1
  omega

/-- A writer that has told of its commit to the end. -/
theorem unsent_set_none {own : Change} (hw : s.writers[i]? = some w)
    (ht : t.writers = s.writers.set i w') (hunsent : w.phase.unsent? = some own)
    (hnone : w'.phase.unsent? = none) :
    (∀ change ∈ s.unsent, change = own ∨ change ∈ t.unsent) ∧ t.unsent ⊆ s.unsent ∧
      (s.writers.length ≤ 1 → t.unsent = ∅) := by
  have hafter : t.unsent = s.unsentBut i := by
    rw [unsent_set hw ht, hnone]
    ext change
    simp
  rw [hafter, unsent_eq hw, hunsent]
  refine ⟨?_, Set.subset_union_right, unsentBut_eq_empty hw⟩
  rintro change (hchange | hchange)
  · exact .inl (Option.some.inj hchange).symm
  · exact .inr hchange

/-- A writer is set to a phase in which it has nothing to tell, and had nothing to tell before. -/
theorem Orderly.silent (h : s.Orderly) (hw : s.writers[i]? = some w)
    (ht : t.writers = s.writers.set i w') (hcell : t.cell = s.cell)
    (hstamp : t.nextStamp = s.nextStamp) (hcommits : t.commits = s.commits)
    (hlock : t.lock = s.lock) (hobserved : t.observed = s.observed)
    (hunsent : w'.phase.unsent? = w.phase.unsent?) (hstage : w'.phase.stage? = w.phase.stage?)
    (hfits : t.Fits i w'.phase) : t.Orderly ∧ Effect obs s t :=
  ⟨h.set hw ht hcell hstamp hcommits (fun _ _ hj => hlock.trans hj) hfits,
    .silent hcommits (unsent_set_same hw ht hunsent) (stage?_set_same hw ht hlock hstage) hobserved⟩

theorem Orderly.build (h : s.Orderly) (hw : s.writers[i]? = some w) {batch : List Edit}
    {seen : Cell} (hphase : w.phase = .loaded seen) :
    (s.build i w batch seen).Orderly ∧ Effect obs s (s.build i w batch seen) := by
  have hsaw : s.Saw seen := by simpa [hphase, Fits] using h.fits i w hw
  have hunsent : w.phase.unsent? = none := by rw [hphase]; rfl
  have hstage : w.phase.stage? = none := by rw [hphase]; rfl
  unfold Writers.build
  split
  · exact h.silent hw rfl rfl rfl (commits_record_of_none _ rfl) rfl rfl hunsent.symm hstage.symm
      trivial
  · exact h.silent hw rfl rfl rfl (commits_record_of_none _ rfl) rfl rfl hunsent.symm hstage.symm
      trivial
  · rename_i next happly
    exact h.silent hw rfl rfl rfl rfl rfl rfl hunsent.symm hstage.symm
      ⟨⟨hsaw.stamp_lt, hsaw.eq_cell⟩, batch, happly⟩

theorem Orderly.store (h : s.Orderly) (hw : s.writers[i]? = some w) {batch : List Edit}
    {seen : Cell} {next : Change} (hphase : w.phase = .built seen next) :
    (s.store i w batch seen next).Orderly ∧ Effect obs s (s.store i w batch seen next) := by
  obtain ⟨hsaw, applied, happly⟩ : s.Saw seen ∧
      ∃ batch, seen.snapshot.apply batch = .ok (some next) := by
    simpa [hphase, Fits] using h.fits i w hw
  have hunsent : w.phase.unsent? = none := by rw [hphase]; rfl
  have hstage : w.phase.stage? = none := by rw [hphase]; rfl
  unfold Writers.store
  split
  · rename_i hstamp
    have hcell : s.cell = seen := hsaw.eq_cell hstamp
    rw [← hcell, h.cell_eq] at happly
    set t := ({ s with cell := ⟨s.nextStamp, next.snapshot⟩, nextStamp := s.nextStamp + 1 }.setPhase
      i w (.committed next)).record
        (.committed i batch seen ⟨s.nextStamp, next.snapshot⟩ next.changedLines) with ht
    have hcommits : t.commits = s.commits ++ [next] := by
      rw [ht, commits_record]
      rfl
    have hwriters : t.writers = s.writers.set i { w with phase := .committed next } := rfl
    have hsaw' : ∀ seen, s.Saw seen → t.Saw seen := by
      intro other hother
      refine ⟨Nat.lt_succ_of_lt hother.stamp_lt, fun heq => ?_⟩
      have hlt := hother.stamp_lt
      have heq' : s.nextStamp = other.stamp := heq
      omega
    refine ⟨⟨hcommits ▸ h.chained.concat happly, ?_, Nat.lt_succ_self _, ?_⟩, ?_⟩
    · rw [hcommits, Commits.latest_concat]
      rfl
    · refine h.fits_set hw hwriters hsaw' hcommits (fun _ _ hj => hj) ?_
      show next ∈ t.commits
      simp [hcommits]
    · refine .commit applied next happly hcommits ?_
        (stage?_set_same hw hwriters rfl hstage.symm) rfl
      rw [unsent_set hw hwriters, unsent_eq hw, hunsent]
      ext own
      simp [WriterPhase.unsent?, eq_comm]
  · exact h.silent hw rfl rfl rfl (commits_record_of_none _ rfl) rfl rfl hunsent.symm hstage.symm
      trivial

theorem Orderly.acquire (h : s.Orderly) (hw : s.writers[i]? = some w) {own : Change}
    (hphase : w.phase = .committed own) (hfirst : obs.first ≠ none)
    (hstep : s.acquire obs i w own = some t) : t.Orderly ∧ Effect obs s t := by
  have hown : own ∈ s.commits := by simpa [hphase, Fits] using h.fits i w hw
  unfold Writers.acquire at hstep
  split at hstep
  · rename_i hnone
    exact absurd hnone hfirst
  split at hstep
  · cases hstep
  · rename_i hlock
    cases hstep
    refine ⟨h.set hw rfl rfl rfl rfl (fun j _ hj => ?_) ⟨hown, rfl⟩, ?_⟩
    · rw [hlock] at hj
      cases hj
    · refine .silent rfl (unsent_set_same hw rfl (by rw [hphase]; rfl)) ?_ rfl
      rw [stage?_set hw rfl rfl rfl, stage?, hlock]
      rfl

theorem Orderly.load (h : s.Orderly) (hw : s.writers[i]? = some w) {own : Change}
    (hphase : w.phase = .locked own) (hfirst : obs.first ≠ none) :
    (s.load obs i w own).Orderly ∧ Effect obs s (s.load obs i w own) := by
  obtain ⟨hown, hlock⟩ : own ∈ s.commits ∧ s.lock = some i := by
    simpa [hphase, Fits] using h.fits i w hw
  obtain ⟨k, hk, hget⟩ := h.chained.getElem?_of_mem hown
  have hlatest := h.chained.held_latest
  unfold Writers.load
  cases hobs : obs.first with
  | none => exact absurd hobs hfirst
  | some first =>
    have hcommits :
        ((s.setPhase i w (.telling own ⟨s.cell.snapshot, own.changedLines⟩ first)).record
          (.told i own ⟨s.cell.snapshot, own.changedLines⟩)).commits = s.commits :=
      commits_record_of_none _ rfl
    have hannounces : s.Announces own ⟨s.cell.snapshot, own.changedLines⟩ := by
      refine ⟨rfl, by rw [h.cell_eq]; exact hlatest, ?_⟩
      rw [h.cell_eq, Commits.latest, h.chained.version_eq (Nat.le_refl _), hk]
      exact (List.getElem?_eq_some_iff.mp hget).1
    refine ⟨h.set hw rfl rfl rfl hcommits (fun _ _ hj => hj) ⟨hcommits.symm ▸ hown, hlock, ?_⟩, ?_⟩
    · exact ⟨rfl, hcommits.symm ▸ hannounces.held, hannounces.version_le⟩
    · refine .begin first hobs hcommits (unsent_set_same hw rfl (by rw [hphase]; rfl)) ?_ ?_ rfl
      · rw [stage?_of_lock hlock hw, hphase]
        rfl
      · exact stage?_set hw rfl hlock rfl

theorem Orderly.tell (h : s.Orderly) (hw : s.writers[i]? = some w) {own told : Change} {stage : σ}
    (hphase : w.phase = .telling own told stage) :
    (s.tell obs i w own told stage).Orderly ∧ Effect obs s (s.tell obs i w own told stage) := by
  obtain ⟨hown, hlock, hannounces⟩ : own ∈ s.commits ∧ s.lock = some i ∧ s.Announces own told := by
    simpa [hphase, Fits] using h.fits i w hw
  have hunsent : w.phase.unsent? = some own := by rw [hphase]; rfl
  have hbefore : s.stage? = some stage := by
    rw [stage?_of_lock hlock hw, hphase]
    rfl
  have hmem : own ∈ s.unsent := ⟨i, w, hw, hunsent⟩
  unfold Writers.tell
  cases hnext : (obs.call told stage s.observed).2 with
  | some next =>
    simp only [hnext]
    refine ⟨h.set hw rfl rfl rfl rfl (fun _ _ hj => hj) ⟨hown, hlock, hannounces.lines_eq,
      hannounces.held, hannounces.version_le⟩, ?_⟩
    refine .tell own told stage hannounces hmem rfl hbefore rfl ?_ (fun _ => ?_) (fun hnone => ?_)
    · rw [hnext]
      exact stage?_set hw rfl hlock rfl
    · exact unsent_set_same hw rfl hunsent.symm
    · rw [hnext] at hnone
      cases hnone
  | none =>
    simp only [hnext]
    refine ⟨h.set hw rfl rfl rfl rfl (fun _ _ hj => hj) hlock, ?_⟩
    refine .tell own told stage hannounces hmem rfl hbefore rfl ?_ (fun hsome => ?_) (fun _ => ?_)
    · rw [hnext]
      exact stage?_set hw rfl hlock rfl
    · exact absurd hnext hsome
    · exact unsent_set_none hw rfl hunsent rfl

theorem Orderly.release (h : s.Orderly) (hw : s.writers[i]? = some w) {own : Change}
    (hphase : w.phase = .releasing own) (outcome : Except EditError LineSet) :
    ({ s with lock := none }.finish i w outcome).Orderly ∧
      Effect obs s ({ s with lock := none }.finish i w outcome) := by
  have hlock : s.lock = some i := by simpa [hphase, Fits] using h.fits i w hw
  refine ⟨h.set hw rfl rfl rfl rfl (fun j hij hj => ?_) trivial, ?_⟩
  · exact absurd (Option.some.inj (hj.symm.trans hlock)) hij
  · refine .silent rfl (unsent_set_same hw rfl (by rw [hphase]; rfl)) ?_ rfl
    rw [stage?_of_lock hlock hw, hphase]
    rfl

/-- Every step of a writer keeps the writers in order. -/
theorem Orderly.step (h : s.Orderly) (hfirst : obs.first ≠ none) (hstep : s.step obs i = some t) :
    t.Orderly ∧ Effect obs s t := by
  unfold Writers.step at hstep
  split at hstep
  · cases hstep
  · rename_i w hw
    split at hstep
    · rename_i hphase _
      cases hstep
      exact h.silent hw rfl rfl rfl (commits_record_of_none _ rfl) rfl rfl (by rw [hphase]; rfl)
        (by rw [hphase]; rfl) ⟨h.stamp_lt, fun _ => rfl⟩
    · rename_i hphase _
      cases hstep
      exact h.build hw hphase
    · rename_i hphase _
      cases hstep
      exact h.store hw hphase
    · rename_i hphase
      exact h.acquire hw hphase hfirst hstep
    · rename_i hphase
      cases hstep
      exact h.load hw hphase hfirst
    · rename_i hphase
      cases hstep
      exact h.tell hw hphase
    · rename_i hphase
      cases hstep
      exact h.release hw hphase _
    · cases hstep

theorem orderly_start (observed : ω) (batches : List (List (List Edit))) :
    (start .empty observed batches : Writers ω σ).Orderly := by
  refine ⟨Commits.chained_nil, rfl, Nat.zero_lt_one, fun i w hw => ?_⟩
  obtain ⟨calls, -, rfl⟩ := List.mem_map.mp (List.mem_of_getElem? hw)
  trivial

theorem unsent_start (observed : ω) (batches : List (List (List Edit))) :
    (start .empty observed batches : Writers ω σ).unsent = ∅ := by
  refine Set.eq_empty_iff_forall_notMem.mpr ?_
  rintro own ⟨i, w, hw, hown⟩
  obtain ⟨calls, -, rfl⟩ := List.mem_map.mp (List.mem_of_getElem? hw)
  cases hown

end Writers

end LineTokens
