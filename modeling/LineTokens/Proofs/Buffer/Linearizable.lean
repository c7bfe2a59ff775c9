import LineTokens.Proofs.Buffer.History

/-! Replacing by several writers at once comes to replacing by one. In every interleaving the
commits are those of the same batches one after another, each writer's calls have come to what its
history settles, one for one and in order, and every event has its reason in the earlier ones.
`Move` says once what a step of a writer can do. -/

namespace LineTokens

variable {ω σ : Type}

/-- What the running call has committed. -/
def WriterPhase.decided? : WriterPhase σ → Option Change
  | committed own | locked own | telling own _ _ | releasing own => some own
  | idle | loaded _ | built _ _ => none

namespace Writer

/-- What the writer's calls return: those that are over, and the running one once it has
committed. -/
def results (w : Writer σ) : List (Except EditError LineSet) :=
  w.outcomes ++ w.phase.decided?.toList.map fun own => .ok own.changedLines

variable {w : Writer σ}

theorem results_of_none (h : w.phase.decided? = none) : w.results = w.outcomes := by
  rw [results, h]
  exact List.append_nil _

theorem results_of_some {own : Change} (h : w.phase.decided? = some own) :
    w.results = w.outcomes ++ [.ok own.changedLines] := by
  rw [results, h]
  rfl

end Writer

namespace Writers

def commitments (s : Writers ω σ) : List Commitment := History.commitments s.history

def commitmentsOf (s : Writers ω σ) (i : Nat) : List Commitment :=
  History.commitmentsOf s.history i

/-- The steps of writer `i`, which is `w` before, and what each of them needs. -/
inductive Move (obs : Observers ω σ) (s : Writers ω σ) (i : Nat) (w : Writer σ) :
    Writers ω σ → Prop
  | begin {batch : List Edit} {rest : List (List Edit)} (phase_eq : w.phase = .idle)
      (batches_eq : w.batches = batch :: rest) : Move obs s i w (s.begin i w)
  | refuse {batch : List Edit} {rest : List (List Edit)} {seen : Cell} {error : EditError}
      (phase_eq : w.phase = .loaded seen) (batches_eq : w.batches = batch :: rest)
      (applied : seen.snapshot.apply batch = .error error) :
      Move obs s i w ((s.finish i w (.error error)).record (.refused i batch seen error))
  | leave {batch : List Edit} {rest : List (List Edit)} {seen : Cell}
      (phase_eq : w.phase = .loaded seen) (batches_eq : w.batches = batch :: rest)
      (applied : seen.snapshot.apply batch = .ok none) :
      Move obs s i w ((s.finish i w (.ok .empty)).record (.unchanged i batch seen))
  | build {batch : List Edit} {rest : List (List Edit)} {seen : Cell} {next : Change}
      (phase_eq : w.phase = .loaded seen) (batches_eq : w.batches = batch :: rest)
      (applied : seen.snapshot.apply batch = .ok (some next)) :
      Move obs s i w (s.setPhase i w (.built seen next))
  | commit {batch : List Edit} {rest : List (List Edit)} {seen : Cell} {next : Change}
      (phase_eq : w.phase = .built seen next) (batches_eq : w.batches = batch :: rest)
      (same : s.cell.stamp = seen.stamp) :
      Move obs s i w (({ s with
          cell := ⟨s.nextStamp, next.snapshot⟩,
          nextStamp := s.nextStamp + 1 }.setPhase i w (.committed next)).record
        (.committed i batch seen ⟨s.nextStamp, next.snapshot⟩ next.changedLines))
  | retry {seen : Cell} {next : Change} (phase_eq : w.phase = .built seen next)
      (differs : s.cell.stamp ≠ seen.stamp) :
      Move obs s i w ((s.setPhase i w .idle).record (.conflict i seen s.cell))
  | unobserved {own : Change} (phase_eq : w.phase = .committed own) (nobody : obs.first = none) :
      Move obs s i w (s.finish i w (.ok own.changedLines))
  | acquire {own : Change} (phase_eq : w.phase = .committed own) (free : s.lock = none) :
      Move obs s i w ({ s with lock := some i }.setPhase i w (.locked own))
  | skip {own : Change} (phase_eq : w.phase = .locked own) (nobody : obs.first = none) :
      Move obs s i w (s.setPhase i w (.releasing own))
  | load {own : Change} {stage : σ} (phase_eq : w.phase = .locked own)
      (first_eq : obs.first = some stage) :
      Move obs s i w ((s.setPhase i w
          (.telling own ⟨s.cell.snapshot, own.changedLines⟩ stage)).record
        (.told i own ⟨s.cell.snapshot, own.changedLines⟩))
  | goOn {own told : Change} {stage next : σ} (phase_eq : w.phase = .telling own told stage)
      (called : (obs.call told stage s.observed).2 = some next) :
      Move obs s i w ({ s with observed := (obs.call told stage s.observed).1 }.setPhase i w
        (.telling own told next))
  | conclude {own told : Change} {stage : σ} (phase_eq : w.phase = .telling own told stage)
      (called : (obs.call told stage s.observed).2 = none) :
      Move obs s i w ({ s with observed := (obs.call told stage s.observed).1 }.setPhase i w
        (.releasing own))
  | release {own : Change} (phase_eq : w.phase = .releasing own) :
      Move obs s i w ({ s with lock := none }.finish i w (.ok own.changedLines))

variable {obs : Observers ω σ} {s t : Writers ω σ} {i : Nat} {w w' : Writer σ}

theorem move_of_step (h : s.step obs i = some t) :
    ∃ w, s.writers[i]? = some w ∧ Move obs s i w t := by
  unfold step at h
  split at h
  · cases h
  rename_i w hw
  refine ⟨w, hw, ?_⟩
  split at h
  · rename_i hphase hbatches
    cases h
    exact .begin hphase hbatches
  · rename_i seen batch rest hphase hbatches
    cases h
    unfold build
    split
    · exact .refuse hphase hbatches ‹_›
    · exact .leave hphase hbatches ‹_›
    · exact .build hphase hbatches ‹_›
  · rename_i seen next batch rest hphase hbatches
    cases h
    unfold store
    split
    · exact .commit hphase hbatches ‹_›
    · exact .retry hphase ‹_›
  · rename_i own hphase
    unfold acquire at h
    split at h
    · cases h
      exact .unobserved hphase ‹_›
    · split at h
      · cases h
      · cases h
        exact .acquire hphase ‹_›
  · rename_i own hphase
    cases h
    unfold load
    split
    · exact .skip hphase ‹_›
    · exact .load hphase ‹_›
  · rename_i own told stage hphase
    cases h
    unfold tell
    dsimp only
    split
    · exact .goOn hphase ‹_›
    · exact .conclude hphase ‹_›
  · rename_i own hphase
    cases h
    exact .release hphase
  · cases h

end Writers

/-! ### One writer -/

theorem zip_concat_of_drop {α β : Type} {calls rest : List α} {results : List β} {call : α}
    (h : calls.drop results.length = call :: rest) (result : β) :
    calls.zip (results ++ [result]) = calls.zip results ++ [(call, result)] := by
  induction results generalizing calls with
  | nil =>
    obtain rfl : calls = call :: rest := h
    simp
  | cons first results ih =>
    cases calls with
    | nil => cases h
    | cons other calls => simpa using ih h

/-- What the history says about a writer in a phase, whose next batches are `batches`. -/
def Backed (first : Cell) (h : History) (i : Nat) (batches : List (List Edit)) :
    WriterPhase σ → Prop
  | .idle => True
  | .loaded seen => History.Loaded first h i seen
  | .built seen next => History.Loaded first h i seen ∧
      ∃ batch rest, batches = batch :: rest ∧ seen.snapshot.apply batch = .ok (some next)
  | .committed own | .locked own | .telling own _ _ | .releasing own =>
    ∃ c ∈ History.commitmentsOf h i, c.change = own

/-- Writer `i`, which was to make the given calls, and the history: each decision is for one of the
calls, in order, and is what the call returns. -/
structure Follows (first : Cell) (h : History) (i : Nat) (calls : List (List Edit))
    (w : Writer σ) : Prop where
  batches_eq : w.batches = calls.drop w.outcomes.length
  length_le : w.results.length ≤ calls.length
  decisions_eq : History.decisions h i = calls.zip w.results
  backed : Backed first h i w.batches w.phase

theorem History.mem_commitmentsOf_append {h : History} {i : Nat} {c : Commitment}
    (hc : c ∈ h.commitmentsOf i) (events : History) : c ∈ commitmentsOf (events ++ h) i := by
  induction events with
  | nil => exact hc
  | cons event events ih =>
    unfold commitmentsOf at ih ⊢
    rw [List.cons_append, commitments_cons, List.filter_append]
    exact List.mem_append_left _ ih

/-- What other writers do takes nothing from it. -/
theorem Backed.append {first : Cell} {h : History} {i : Nat} {batches : List (List Edit)}
    {phase : WriterPhase σ} (hb : Backed first h i batches phase) {events : History}
    (hne : ∀ e ∈ events, e.writer ≠ i) : Backed first (events ++ h) i batches phase := by
  cases phase with
  | idle => trivial
  | loaded seen => exact History.Loaded.append hb hne
  | built seen next => exact ⟨hb.1.append hne, hb.2⟩
  | committed own | locked own | telling own told stage | releasing own =>
    obtain ⟨c, hc, hchange⟩ := hb
    exact ⟨c, History.mem_commitmentsOf_append hc events, hchange⟩

namespace Follows

variable {first : Cell} {h h' : History} {i : Nat} {calls : List (List Edit)} {w w' : Writer σ}

theorem append (hf : Follows first h i calls w) {events : History}
    (hne : ∀ e ∈ events, e.writer ≠ i) : Follows first (events ++ h) i calls w :=
  ⟨hf.batches_eq, hf.length_le, (History.decisions_append_of_ne hne h).trans hf.decisions_eq,
    hf.backed.append hne⟩

/-- One call less is to come when one is over. -/
theorem drop_batches (hf : Follows first h i calls w) (outcome : Except EditError LineSet) :
    w.batches.drop 1 = calls.drop (w.outcomes ++ [outcome]).length := by
  rw [hf.batches_eq, List.drop_drop, List.length_append, List.length_singleton]

/-- Nothing is decided. -/
theorem keep (hf : Follows first h i calls w) (hbatches : w'.batches = calls.drop w'.outcomes.length)
    (hresults : w'.results = w.results)
    (hdecisions : History.decisions h' i = History.decisions h i)
    (hbacked : Backed first h' i w'.batches w'.phase) : Follows first h' i calls w' := by
  refine ⟨hbatches, ?_, ?_, hbacked⟩
  · rw [hresults]
    exact hf.length_le
  · rw [hdecisions, hf.decisions_eq, hresults]

/-- The running call is decided. -/
theorem decide (hf : Follows first h i calls w) {batch : List Edit} {rest : List (List Edit)}
    (hcall : w.batches = batch :: rest) (hbefore : w.phase.decided? = none)
    {outcome : Except EditError LineSet}
    (hbatches : w'.batches = calls.drop w'.outcomes.length)
    (hresults : w'.results = w.outcomes ++ [outcome])
    (hdecisions : History.decisions h' i = History.decisions h i ++ [(batch, outcome)])
    (hbacked : Backed first h' i w'.batches w'.phase) : Follows first h' i calls w' := by
  have hdrop : calls.drop w.outcomes.length = batch :: rest := hf.batches_eq.symm.trans hcall
  refine ⟨hbatches, ?_, ?_, hbacked⟩
  · have hlength := congrArg List.length hdrop
    rw [List.length_drop, List.length_cons] at hlength
    rw [hresults, List.length_append, List.length_singleton]
    omega
  · rw [hdecisions, hf.decisions_eq, hresults, Writer.results_of_none hbefore,
      zip_concat_of_drop hdrop]

end Follows

/-! ### All writers -/

namespace Writers

/-- The history of writers that were to make the given calls, at a buffer that held `first`, tells
how they have come to be as they are. -/
structure Traced (first : Snapshot) (calls : List (List (List Edit))) (s : Writers ω σ) :
    Prop where
  length_eq : s.writers.length = calls.length
  cell_eq : History.current ⟨0, first⟩ s.history = s.cell
  stamp_lt : s.cell.stamp < s.nextStamp
  lawful : History.Lawful ⟨0, first⟩ s.history
  writer_lt : ∀ event ∈ s.history, event.writer < calls.length
  follows : ∀ i w mine, s.writers[i]? = some w → calls[i]? = some mine →
    Follows ⟨0, first⟩ s.history i mine w

namespace Traced

variable {obs : Observers ω σ} {first : Snapshot} {calls : List (List (List Edit))}
  {s t : Writers ω σ} {i : Nat} {w w' : Writer σ}

/-- The other writers are still as the history says when one is set. -/
theorem follows_set (h : s.Traced first calls) (hw : s.writers[i]? = some w)
    (ht : t.writers = s.writers.set i w') {events : History}
    (hhistory : t.history = events ++ s.history) (hown : ∀ e ∈ events, e.writer = i)
    (hfollows : ∀ mine, Follows ⟨0, first⟩ s.history i mine w →
      Follows ⟨0, first⟩ t.history i mine w') :
    ∀ j v mine, t.writers[j]? = some v → calls[j]? = some mine →
      Follows ⟨0, first⟩ t.history j mine v := by
  intro j v mine hv hmine
  by_cases hij : j = i
  · subst hij
    obtain rfl := Option.some.inj ((getElem?_set_self hw ht).symm.trans hv)
    exact hfollows mine (h.follows j w mine hw hmine)
  · rw [getElem?_set_ne hij ht] at hv
    rw [hhistory]
    exact (h.follows j v mine hv hmine).append fun e he hj => hij (hj.symm.trans (hown e he))

/-- A step without an event. -/
theorem silent (h : s.Traced first calls) (hw : s.writers[i]? = some w)
    (ht : t.writers = s.writers.set i w') (hhistory : t.history = s.history)
    (hcell : t.cell = s.cell) (hstamp : t.nextStamp = s.nextStamp)
    (hfollows : ∀ mine, Follows ⟨0, first⟩ s.history i mine w →
      Follows ⟨0, first⟩ s.history i mine w') : t.Traced first calls := by
  have hnone : t.history = [] ++ s.history := hhistory
  refine ⟨?_, ?_, ?_, ?_, ?_, h.follows_set hw ht hnone (by simp) ?_⟩
  · rw [ht, List.length_set, h.length_eq]
  · rw [hhistory, hcell, h.cell_eq]
  · rw [hcell, hstamp]
    exact h.stamp_lt
  · rw [hhistory]
    exact h.lawful
  · rw [hhistory]
    exact h.writer_lt
  · rw [hhistory]
    exact hfollows

/-- A step with an event. -/
theorem record (h : s.Traced first calls) (hw : s.writers[i]? = some w)
    (ht : t.writers = s.writers.set i w') {event : BufferEvent}
    (hhistory : t.history = event :: s.history) (hwriter : event.writer = i)
    (hexplained : History.Explained ⟨0, first⟩ s.history event)
    (hcell : History.current ⟨0, first⟩ (event :: s.history) = t.cell)
    (hstamp : t.cell.stamp < t.nextStamp)
    (hfollows : ∀ mine, Follows ⟨0, first⟩ s.history i mine w →
      Follows ⟨0, first⟩ (event :: s.history) i mine w') : t.Traced first calls := by
  have hi : i < calls.length := h.length_eq ▸ (List.getElem?_eq_some_iff.mp hw).1
  have hone : t.history = [event] ++ s.history := hhistory
  refine ⟨?_, ?_, hstamp, ?_, ?_, h.follows_set hw ht hone ?_ ?_⟩
  · rw [ht, List.length_set, h.length_eq]
  · rw [hhistory, hcell]
  · rw [hhistory]
    exact ⟨hexplained, h.lawful⟩
  · intro other hother
    rw [hhistory] at hother
    rcases List.mem_cons.mp hother with rfl | hother
    · exact hwriter ▸ hi
    · exact h.writer_lt other hother
  · intro other hother
    exact List.mem_singleton.mp hother ▸ hwriter
  · rw [hhistory]
    exact hfollows

/-- A step without an event, in which the writer goes on with its call. -/
theorem setPhase (h : s.Traced first calls) (hw : s.writers[i]? = some w) {phase : WriterPhase σ}
    (ht : t.writers = s.writers.set i { w with phase }) (hhistory : t.history = s.history)
    (hcell : t.cell = s.cell) (hstamp : t.nextStamp = s.nextStamp)
    (hdecided : phase.decided? = w.phase.decided?)
    (hbacked : Backed ⟨0, first⟩ s.history i w.batches phase) : t.Traced first calls := by
  refine h.silent hw ht hhistory hcell hstamp fun mine hf => ?_
  refine hf.keep hf.batches_eq ?_ rfl hbacked
  rw [Writer.results, Writer.results, hdecided]

/-- A step without an event, in which a call ends that has committed. -/
theorem finish (h : s.Traced first calls) (hw : s.writers[i]? = some w) {own : Change}
    (hdecided : w.phase.decided? = some own)
    (ht : t.writers = s.writers.set i
      ⟨w.batches.drop 1, .idle, w.outcomes ++ [.ok own.changedLines]⟩)
    (hhistory : t.history = s.history) (hcell : t.cell = s.cell)
    (hstamp : t.nextStamp = s.nextStamp) : t.Traced first calls := by
  refine h.silent hw ht hhistory hcell hstamp fun mine hf => ?_
  refine hf.keep (hf.drop_batches _) ?_ rfl trivial
  rw [Writer.results_of_some hdecided, Writer.results_of_none rfl]

/-- A step with an event that leaves the cell as it is. -/
theorem note (h : s.Traced first calls) (hw : s.writers[i]? = some w)
    (ht : t.writers = s.writers.set i w') {event : BufferEvent}
    (hhistory : t.history = event :: s.history) (hwriter : event.writer = i)
    (hexplained : History.Explained ⟨0, first⟩ s.history event) (hsilent : event.stored? = none)
    (hcell : t.cell = s.cell) (hstamp : t.nextStamp = s.nextStamp)
    (hfollows : ∀ mine, Follows ⟨0, first⟩ s.history i mine w →
      Follows ⟨0, first⟩ (event :: s.history) i mine w') : t.Traced first calls := by
  refine h.record hw ht hhistory hwriter hexplained ?_ ?_ hfollows
  · rw [History.current_cons_silent hsilent, h.cell_eq, hcell]
  · rw [hcell, hstamp]
    exact h.stamp_lt

/-- What the history says about the writer that makes a step. -/
theorem backed (h : s.Traced first calls) (hw : s.writers[i]? = some w) :
    Backed ⟨0, first⟩ s.history i w.batches w.phase := by
  have hi : i < calls.length := h.length_eq ▸ (List.getElem?_eq_some_iff.mp hw).1
  exact (h.follows i w calls[i] hw (List.getElem?_eq_getElem hi)).backed

theorem commitment_writer_lt (h : s.Traced first calls) {c : Commitment}
    (hc : c ∈ s.commitments) : c.writer < calls.length := by
  obtain ⟨event, hevent, hcommitment⟩ := History.mem_each.mp hc
  rw [BufferEvent.writer_of_commitment? hcommitment]
  exact h.writer_lt event hevent

/-- A loaded cell is current while its stamp is. -/
theorem same_cell (h : s.Traced first calls) {seen : Cell}
    (hloaded : History.Loaded ⟨0, first⟩ s.history i seen) (hsame : s.cell.stamp = seen.stamp) :
    s.cell = seen := by
  obtain ⟨since, before, hsplit, hquiet, hcurrent⟩ := hloaded
  have hlawful := h.lawful
  have hcell := h.cell_eq
  rw [hsplit] at hlawful hcell
  have hseen : History.current ⟨0, first⟩ (.loaded i seen :: before) = seen :=
    (History.current_cons_silent rfl _ _).trans hcurrent
  rcases hlawful.current_eq_or_stamp_lt with heq | hlt
  · rw [← hcell, heq, hseen]
  · rw [hcell, hseen] at hlt
    omega

/-- A loaded cell whose stamp is not current has been replaced by another writer. -/
theorem other_commit (h : s.Traced first calls) {seen : Cell} {since before : History}
    (hloaded : History.LoadedAt ⟨0, first⟩ s.history i seen since before)
    (hdiffers : s.cell.stamp ≠ seen.stamp) :
    ∃ event ∈ since, event.writer ≠ i ∧ event.commitment?.isSome := by
  by_contra hnone
  have hsilent : ∀ event ∈ since, event.stored? = none := by
    intro event hevent
    cases event with
    | committed j batch replaced stored changed =>
      exact absurd ⟨_, hevent, hloaded.quiet _ hevent, rfl⟩ hnone
    | loaded | unchanged | refused | conflict | told => rfl
  have hcell : s.cell = seen := by
    rw [← h.cell_eq, hloaded.split, History.current_append_silent hsilent,
      History.current_cons_silent rfl, hloaded.current_eq]
  exact hdiffers (congrArg Cell.stamp hcell)

/-- A call is decided where it commits, is refused or changes nothing; all other steps keep what is
decided. -/
theorem step (h : s.Traced first calls) (hstep : s.step obs i = some t) : t.Traced first calls := by
  obtain ⟨w, hw, hmove⟩ := move_of_step hstep
  have hbacked := h.backed hw
  cases hmove with
  | begin hphase hbatches =>
    refine h.note hw rfl rfl rfl (h.cell_eq ▸ .loaded i) rfl rfl rfl fun mine hf => ?_
    refine hf.keep hf.batches_eq ?_ (History.decisions_cons_silent rfl _ _)
      ⟨[], s.history, rfl, by simp, h.cell_eq⟩
    rw [Writer.results_of_none rfl, Writer.results_of_none (by rw [hphase]; rfl)]
  | refuse hphase hbatches happlied =>
    rw [hphase] at hbacked
    refine h.note hw rfl rfl rfl (.refused hbacked happlied) rfl rfl rfl fun mine hf => ?_
    exact hf.decide hbatches (by rw [hphase]; rfl) (hf.drop_batches _)
      (Writer.results_of_none rfl) (History.decisions_cons_own rfl _) trivial
  | leave hphase hbatches happlied =>
    rw [hphase] at hbacked
    refine h.note hw rfl rfl rfl (.unchanged hbacked happlied) rfl rfl rfl fun mine hf => ?_
    exact hf.decide hbatches (by rw [hphase]; rfl) (hf.drop_batches _)
      (Writer.results_of_none rfl) (History.decisions_cons_own rfl _) trivial
  | build hphase hbatches happlied =>
    rw [hphase] at hbacked
    exact h.setPhase hw rfl rfl rfl rfl (by rw [hphase]; rfl) ⟨hbacked, _, _, hbatches, happlied⟩
  | commit hphase hbatches hsame =>
    rename_i batch rest seen next
    rw [hphase] at hbacked
    obtain ⟨hloaded, batch', rest', hbatches', happlied⟩ := hbacked
    obtain ⟨rfl, -⟩ := List.cons.inj (hbatches.symm.trans hbatches')
    -- The cell is the very one that the change was built from, not only one like it.
    have hcell : s.cell = seen := h.same_cell hloaded hsame
    have hfresh : seen.stamp < s.nextStamp := hcell ▸ h.stamp_lt
    refine h.record hw rfl rfl rfl (.committed hloaded (h.cell_eq.trans hcell) happlied hfresh)
      (History.current_cons_stored rfl _ _) (Nat.lt_succ_self _) fun mine hf => ?_
    refine hf.decide hbatches (by rw [hphase]; rfl) hf.batches_eq (Writer.results_of_some rfl)
      (History.decisions_cons_own rfl _) ⟨⟨i, batch, next⟩, ?_, rfl⟩
    rw [History.commitmentsOf_committed]
    exact List.mem_append_right _ (List.mem_singleton_self _)
  | retry hphase hdiffers =>
    rw [hphase] at hbacked
    obtain ⟨⟨since, before, hloaded⟩, -⟩ := hbacked
    have hother := h.other_commit hloaded hdiffers
    refine h.note hw rfl rfl rfl (h.cell_eq ▸ .conflict hloaded hother) rfl rfl rfl
      fun mine hf => ?_
    refine hf.keep hf.batches_eq ?_ (History.decisions_cons_silent rfl _ _) trivial
    rw [Writer.results_of_none rfl, Writer.results_of_none (by rw [hphase]; rfl)]
  | unobserved hphase hnobody => exact h.finish hw (by rw [hphase]; rfl) rfl rfl rfl rfl
  | acquire hphase hfree =>
    rw [hphase] at hbacked
    exact h.setPhase hw rfl rfl rfl rfl (by rw [hphase]; rfl) hbacked
  | skip hphase hnobody =>
    rw [hphase] at hbacked
    exact h.setPhase hw rfl rfl rfl rfl (by rw [hphase]; rfl) hbacked
  | load hphase hfirst =>
    rw [hphase] at hbacked
    obtain ⟨c, hc, rfl⟩ := hbacked
    -- The call was decided by its commit; the announcement comes after.
    refine h.note hw rfl rfl rfl (h.cell_eq ▸ .told hc) rfl rfl rfl fun mine hf => ?_
    refine hf.keep hf.batches_eq ?_ (History.decisions_cons_silent rfl _ _)
      ⟨c, History.mem_commitmentsOf_append hc [_], rfl⟩
    rw [Writer.results_of_some rfl, Writer.results_of_some (by rw [hphase]; rfl)]
  | goOn hphase hcalled =>
    rw [hphase] at hbacked
    exact h.setPhase hw rfl rfl rfl rfl (by rw [hphase]; rfl) hbacked
  | conclude hphase hcalled =>
    rw [hphase] at hbacked
    exact h.setPhase hw rfl rfl rfl rfl (by rw [hphase]; rfl) hbacked
  | release hphase => exact h.finish hw (by rw [hphase]; rfl) rfl rfl rfl rfl

end Traced

theorem traced_start (first : Snapshot) (observed : ω) (calls : List (List (List Edit))) :
    (start first observed calls : Writers ω σ).Traced first calls := by
  refine ⟨List.length_map _, rfl, Nat.zero_lt_one, trivial, by simp [start], ?_⟩
  intro i w mine hw hmine
  have hget : (calls.map fun batches => (⟨batches, .idle, []⟩ : Writer σ))[i]? = some w := hw
  rw [List.getElem?_map, hmine] at hget
  obtain rfl := Option.some.inj hget
  refine ⟨rfl, Nat.zero_le _, ?_, trivial⟩
  rw [Writer.results_of_none rfl, List.zip_nil_right]
  rfl

theorem Reachable.traced {obs : Observers ω σ} {first : Snapshot} {observed : ω}
    {calls : List (List (List Edit))} {s : Writers ω σ}
    (h : Reachable obs (Writers.start first observed calls) s) : s.Traced first calls := by
  induction h with
  | start => exact traced_start first observed calls
  | step i _ hstep ih => exact ih.step hstep

theorem idle_of_isDone {s : Writers ω σ} (h : s.isDone = true) {i : Nat} {w : Writer σ}
    (hw : s.writers[i]? = some w) : w.phase = .idle ∧ w.batches = [] := by
  have hw := List.all_eq_true.mp h w (List.mem_of_getElem? hw)
  cases hphase : w.phase with
  | idle =>
    rw [hphase] at hw
    exact ⟨rfl, List.isEmpty_iff.mp hw⟩
  | loaded | built | committed | locked | telling | releasing =>
    rw [hphase] at hw
    cases hw

namespace Traced

variable {first : Snapshot} {calls : List (List (List Edit))} {s : Writers ω σ} {i : Nat}
  {mine : List (List Edit)}

theorem exists_follows (h : s.Traced first calls) (hmine : calls[i]? = some mine) :
    ∃ w, s.writers[i]? = some w ∧ Follows ⟨0, first⟩ s.history i mine w := by
  have hi : i < s.writers.length := h.length_eq ▸ (List.getElem?_eq_some_iff.mp hmine).1
  have hw : s.writers[i]? = some s.writers[i] := List.getElem?_eq_getElem hi
  exact ⟨_, hw, h.follows i _ mine hw hmine⟩

/-- When all writers are done, every call has come to something. -/
theorem decisions_of_isDone (h : s.Traced first calls) (hdone : s.isDone = true)
    (hmine : calls[i]? = some mine) : (History.decisions s.history i).map Prod.fst = mine := by
  obtain ⟨w, hw, hf⟩ := h.exists_follows hmine
  obtain ⟨hidle, hbatches⟩ := idle_of_isDone hdone hw
  have hresults : w.results = w.outcomes := Writer.results_of_none (by rw [hidle]; rfl)
  have hlength : mine.length ≤ w.results.length := by
    rw [hresults]
    exact List.drop_eq_nil_iff.mp (hf.batches_eq.symm.trans hbatches)
  rw [hf.decisions_eq, List.map_fst_zip hlength]

/-- Only the writers that there are have decided anything. -/
theorem decisions_of_none (h : s.Traced first calls) (hnone : calls[i]? = none) :
    History.decisions s.history i = [] := by
  have hle : calls.length ≤ i := List.getElem?_eq_none_iff.mp hnone
  have hne : ∀ event ∈ s.history, event.writer ≠ i := fun event hevent =>
    Nat.ne_of_lt (Nat.lt_of_lt_of_le (h.writer_lt event hevent) hle)
  have hnothing := History.decisions_append_of_ne hne []
  rwa [List.append_nil] at hnothing

end Traced

/-- However the steps of any number of writers are interleaved, their commits are those of a buffer
at which the committed batches were replaced one after another, each with one more version. The
commits of a writer are, one for one and in order, those of its calls that return changed lines; and
every result returned, every commit and every conflict is explained by what came before: a result
by the cell that the call loaded last, a conflict by a commit of another writer since then. -/
theorem replace_linearizable {obs : Observers ω σ} {first : Snapshot} {observed : ω}
    {calls : List (List (List Edit))} {s : Writers ω σ}
    (h : Reachable obs (start first observed calls) s) :
    (∀ observerCount,
      TextBuffer.replaceAll ⟨first, observerCount⟩ (s.commitments.map (·.batch)) =
        (⟨s.cell.snapshot, observerCount⟩, s.commitments.map (·.change))) ∧
    s.cell.snapshot.version = first.version + s.commitments.length ∧
    (∀ c ∈ s.commitments, c.writer < calls.length) ∧
    (∀ i mine, calls[i]? = some mine → ∃ w, s.writers[i]? = some w ∧
      w.batches = mine.drop w.outcomes.length ∧ w.results.length ≤ mine.length ∧
      History.decisions s.history i = mine.zip w.results ∧
      (s.commitmentsOf i).map (·.decision) = (mine.zip w.results).filter Decision.changes) ∧
    ∀ later event earlier, s.history = later ++ event :: earlier →
      History.Explained ⟨0, first⟩ earlier event := by
  have ht : s.Traced first calls := h.traced
  refine ⟨fun observerCount => ?_, ?_, fun c hc => ?_, fun i mine hmine => ?_,
    fun later event earlier hsplit => ?_⟩
  · rw [← ht.cell_eq]
    exact ht.lawful.replaceAll_eq observerCount
  · rw [← ht.cell_eq]
    exact ht.lawful.version_eq
  · exact ht.commitment_writer_lt hc
  · have hi : i < s.writers.length := ht.length_eq ▸ (List.getElem?_eq_some_iff.mp hmine).1
    have hw : s.writers[i]? = some s.writers[i] := List.getElem?_eq_getElem hi
    have hf := ht.follows i _ mine hw hmine
    refine ⟨_, hw, hf.batches_eq, hf.length_le, hf.decisions_eq, ?_⟩
    rw [← hf.decisions_eq]
    exact ht.lawful.decision_commitmentsOf i
  · have hlawful := ht.lawful
    rw [hsplit] at hlawful
    exact hlawful.explained

/-- Two writers race for the first commit. The second builds its batch anew, on the line that the
first has put in; later one call is refused and one changes nothing. -/
theorem replace_linearizable_racing :
    let calls := [[[.insertLine 0 ['a']], [⟨0, 9, 0, ['x']⟩]],
      [[.insertLine 0 ['b']], [⟨0, 1, 1, ['c']⟩], [⟨0, 0, 0, []⟩]]]
    let first : Writers (List Delivery) Nat := start .empty [] calls
    let s := first.runRounds (recorders 1) 40
    Reachable (recorders 1) first s ∧ s.isDone = true ∧
      TextBuffer.empty.replaceAll [[.insertLine 0 ['a']], [.insertLine 0 ['b']],
          [⟨0, 1, 1, ['c']⟩]] = (⟨s.cell.snapshot, 0⟩, s.commitments.map (·.change)) ∧
      s.cell.snapshot = ⟨['b', 'c'], 1, 2, 3⟩ ∧
      (s.commitmentsOf 0).length = 1 ∧ (s.commitmentsOf 1).length = 2 ∧
      s.history = s.history.take 11 ++
        .conflict 1 ⟨0, .empty⟩ ⟨1, ⟨['a'], 1, 1, 1⟩⟩ :: s.history.drop 12 ∧
      History.Explained ⟨0, .empty⟩ (s.history.drop 12)
        (.conflict 1 ⟨0, .empty⟩ ⟨1, ⟨['a'], 1, 1, 1⟩⟩) := by
  intro calls first s
  have hreached : Reachable (recorders 1) first s := Reachable.start.runRounds 40
  obtain ⟨hserial, -, -, -, hexplained⟩ := replace_linearizable hreached
  have hbatches : s.commitments.map (·.batch) =
      [[.insertLine 0 ['a']], [.insertLine 0 ['b']], [⟨0, 1, 1, ['c']⟩]] := by decide +kernel
  have hhistory : s.history = s.history.take 11 ++
      .conflict 1 ⟨0, .empty⟩ ⟨1, ⟨['a'], 1, 1, 1⟩⟩ :: s.history.drop 12 := by decide +kernel
  refine ⟨hreached, by decide +kernel, ?_, by decide +kernel, by decide +kernel, by decide +kernel,
    hhistory, hexplained _ _ _ hhistory⟩
  rw [← hbatches]
  exact hserial 0

end Writers

end LineTokens
