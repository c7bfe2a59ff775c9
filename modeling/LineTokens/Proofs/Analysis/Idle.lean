import LineTokens.Proofs.Analysis.Interleaved

/-! What an idle analyzer has analysed. A pass that is stopped settles its requests like one that
completes, and leaves its lines to the next pass. The change that stops it trips the flag before it
is counted; so in between an analyzer may be idle with lines still to be analysed. At all other
times an idle analyzer has published a snapshot as late as that of every request counted. -/

namespace LineTokens

/-- The request that a writer counts as submitted with its next step. -/
def WriterPhase.counts? : WriterPhase NoticeStage → Option Change
  | telling _ told .submit => some told
  | _ => none

namespace Writers

variable {s t : Writers Analyzer NoticeStage} {requests : List Change} {request : Change} {i : Nat}

/-- Some writer has counted the request and sends it with its next step. -/
def Sends (s : Writers Analyzer NoticeStage) (request : Change) : Prop :=
  ∃ (i : Nat) (w : Writer NoticeStage) (own : Change),
    s.writers[i]? = some w ∧ w.phase = .telling own request .send

theorem Sends.stage_eq (h : s.Sends request) (horderly : s.Orderly) : s.stage? = some .send := by
  obtain ⟨i, w, own, hw, hphase⟩ := h
  have hfits := horderly.fits i w hw
  rw [hphase] at hfits
  rw [stage?_of_lock hfits.2.1 hw, hphase]
  rfl

/-- `requests` are the requests counted so far. Each is about to be sent, or it is in the queue, or
the worker has seen a snapshot as late. -/
structure Accounts (requests : List Change) (s : Writers Analyzer NoticeStage) : Prop where
  length_eq : requests.length = s.observed.submitted
  heard : ∀ request ∈ requests, s.Sends request ∨ request ∈ s.observed.queue ∨
    request.snapshot.version ≤ s.observed.latestSeen.version

theorem accounts_start (snapshot : Snapshot) (batches : List (List (List Edit))) :
    (start snapshot .start batches).Accounts [] :=
  ⟨rfl, fun _ hmem => absurd hmem List.not_mem_nil⟩

theorem Accounts.congr (h : s.Accounts requests)
    (hsends : ∀ request, s.Sends request → t.Sends request)
    (hsubmitted : t.observed.submitted = s.observed.submitted)
    (hqueue : t.observed.queue = s.observed.queue)
    (hnewest : t.observed.newest = s.observed.newest) : t.Accounts requests := by
  refine ⟨h.length_eq.trans hsubmitted.symm, fun request hmem => ?_⟩
  rw [hqueue, Analyzer.latestSeen_congr hnewest]
  exact (h.heard request hmem).imp_left (hsends request)

theorem Accounts.move {b : Analyzer} (h : s.Accounts requests)
    (hmove : Analyzer.WorkerMove s.observed b) : Accounts requests { s with observed := b } := by
  cases hmove with
  | drain hwaiting hasked =>
    obtain ⟨-, hle, hall⟩ := s.observed.latestSeen_drain
    refine ⟨h.length_eq, fun request hmem => ?_⟩
    rcases h.heard request hmem with hsends | hqueued | hseen
    · exact .inl hsends
    · exact .inr (.inr (hall request hqueued))
    · exact .inr (.inr (Nat.le_trans hseen hle))
  | proceed | storePatch | publish | settle => exact h.congr (fun _ => id) rfl rfl rfl

/-- A request about to be sent is so after a step of some writer, unless that step sends it. -/
theorem Sends.set {w w' : Writer NoticeStage} (h : s.Sends request) (hw : s.writers[i]? = some w)
    (ht : t.writers = s.writers.set i w') :
    (∃ own, w.phase = .telling own request .send) ∨ t.Sends request := by
  obtain ⟨j, v, own, hv, hphase⟩ := h
  by_cases hij : j = i
  · subst hij
    obtain rfl := Option.some.inj (hw.symm.trans hv)
    exact .inl ⟨own, hphase⟩
  · exact .inr ⟨j, v, own, (getElem?_set_ne hij ht).trans hv, hphase⟩

theorem Sends.keep {w w' : Writer NoticeStage} (h : s.Sends request) (hw : s.writers[i]? = some w)
    (ht : t.writers = s.writers.set i w') (hstage : w.phase.stage? ≠ some .send) :
    t.Sends request := by
  refine (h.set hw ht).resolve_left ?_
  rintro ⟨own, hphase⟩
  rw [hphase] at hstage
  exact hstage rfl

theorem Accounts.tell {w : Writer NoticeStage} {own told : Change} {stage : NoticeStage}
    (h : s.Accounts requests) (hw : s.writers[i]? = some w)
    (hphase : w.phase = .telling own told stage) :
    (s.tell Analyzer.observers i w own told stage).Accounts
      (requests ++ w.phase.counts?.toList) := by
  rw [hphase]
  cases stage with
  | install | cancel _ =>
    refine (List.append_nil requests).symm ▸ h.congr (fun request hsends => ?_) rfl rfl rfl
    exact hsends.keep hw rfl (by simp [hphase, WriterPhase.stage?])
  | submit =>
    refine ⟨?_, fun request hmem => ?_⟩
    · rw [List.length_append, h.length_eq]
      rfl
    · rcases List.mem_append.mp hmem with hold | hnew
      · refine (h.heard request hold).imp_left fun hsends => ?_
        exact hsends.keep hw rfl (by simp [hphase, WriterPhase.stage?])
      · obtain rfl : request = told := List.mem_singleton.mp hnew
        exact .inl ⟨i, _, own, getElem?_set_self hw rfl, rfl⟩
  | send =>
    refine (List.append_nil requests).symm ▸ ⟨h.length_eq, fun request hmem => ?_⟩
    have hset : (s.tell Analyzer.observers i w own told .send).writers =
        s.writers.set i { w with phase := .releasing own } := rfl
    rcases h.heard request hmem with hsends | hqueued | hseen
    · rcases hsends.set hw hset with ⟨own', hsending⟩ | hlater
      · obtain rfl : told = request := by
          rw [hphase] at hsending
          cases hsending
          rfl
        exact .inr (.inl (List.mem_append_right _ (List.mem_singleton_self told)))
      · exact .inl hlater
    · exact .inr (.inl (List.mem_append_left _ hqueued))
    · exact .inr (.inr hseen)

theorem Accounts.step (h : s.Accounts requests) (hstep : s.step Analyzer.observers i = some t) :
    t.Accounts (requests ++ (s.writers[i]?.bind (·.phase.counts?)).toList) := by
  obtain ⟨w, w', hw, ht, hcases⟩ := step_cases hstep
  rw [hw, Option.bind_some]
  rcases hcases with ⟨hstage, hobserved⟩ | ⟨own, told, stage, hphase, rfl⟩
  · have hcounts : w.phase.counts? = none := by
      cases hp : w.phase with
      | telling own told stage => rw [hp] at hstage; cases hstage
      | idle | loaded | built | committed | locked | releasing => rfl
    rw [hcounts]
    refine (List.append_nil requests).symm ▸ h.congr (fun request hsends => ?_) ?_ ?_ ?_
    · exact hsends.keep hw ht (by simp [hstage])
    · rw [hobserved]
    · rw [hobserved]
    · rw [hobserved]
  · exact h.tell hw hphase

end Writers

namespace Concurrent

variable {tokenizer : Tokenizer} {c d first : Concurrent} {actor : Actor} {schedule : List Actor}
  {requests before : List Change} {batches : List (List (List Edit))}

/-- The request that a step counts as submitted. -/
def counts (c : Concurrent) : Actor → Option Change
  | .writer i => c.writers.writers[i]?.bind (·.phase.counts?)
  | .worker | .client => none

/-- The state that a schedule of steps leads to, with the requests counted on the way; `none` if
somebody whose turn it is can make no step. -/
def follow (tokenizer : Tokenizer) (c : Concurrent) : List Actor → Option (Concurrent × List Change)
  | [] => some (c, [])
  | actor :: rest =>
    (c.step tokenizer actor).bind fun d =>
      (d.follow tokenizer rest).map fun (last, requests) =>
        (last, (c.counts actor).toList ++ requests)

theorem follow_cons_eq_some (h : c.follow tokenizer (actor :: schedule) = some (d, requests)) :
    ∃ next later, c.step tokenizer actor = some next ∧
      next.follow tokenizer schedule = some (d, later) ∧
      requests = (c.counts actor).toList ++ later := by
  obtain ⟨next, hnext, hrest⟩ := Option.bind_eq_some_iff.mp h
  obtain ⟨⟨last, later⟩, hlater, heq⟩ := Option.map_eq_some_iff.mp hrest
  cases heq
  exact ⟨next, later, hnext, hlater, rfl⟩

/-- One more step at the end of a schedule. -/
theorem follow_concat (hran : first.follow tokenizer schedule = some (c, requests))
    (hstep : c.step tokenizer actor = some d) :
    first.follow tokenizer (schedule ++ [actor]) =
      some (d, requests ++ (c.counts actor).toList) := by
  induction schedule generalizing first requests with
  | nil =>
    cases hran
    simp [follow, hstep]
  | cons other rest ih =>
    obtain ⟨next, later, hnext, hlater, rfl⟩ := follow_cons_eq_some hran
    rw [List.cons_append, follow, hnext, Option.bind_some, ih hlater, List.append_assoc]
    rfl

theorem Reachable.follow (h : Reachable tokenizer first c)
    (hran : c.follow tokenizer schedule = some (d, requests)) : Reachable tokenizer first d := by
  induction schedule generalizing c requests with
  | nil =>
    cases hran
    exact h
  | cons actor rest ih =>
    obtain ⟨next, later, hnext, hlater, -⟩ := follow_cons_eq_some hran
    exact ih (h.step actor hnext) hlater

/-- Schedules lead to the reachable states. -/
theorem reachable_iff_follow : Reachable tokenizer first c ↔
    ∃ schedule requests, first.follow tokenizer schedule = some (c, requests) := by
  constructor
  · intro h
    induction h with
    | start => exact ⟨[], [], rfl⟩
    | step actor _ hstep ih =>
      obtain ⟨schedule, requests, hran⟩ := ih
      exact ⟨_, _, follow_concat hran hstep⟩
  · rintro ⟨schedule, requests, hran⟩
    exact Reachable.start.follow hran

/-- What holds when `requests` have been counted. -/
structure Followed (tokenizer : Tokenizer) (requests : List Change) (c : Concurrent) : Prop where
  proper : ∃ passes, c.Proper tokenizer passes
  accounts : c.writers.Accounts requests

theorem followed_start (tokenizer : Tokenizer) (batches : List (List (List Edit))) :
    (start .empty .start batches).Followed tokenizer [] :=
  ⟨⟨0, proper_start batches⟩, Writers.accounts_start _ _⟩

theorem Followed.step (h : c.Followed tokenizer requests)
    (hstep : c.step tokenizer actor = some d) :
    d.Followed tokenizer (requests ++ (c.counts actor).toList) := by
  obtain ⟨passes, hproper⟩ := h.proper
  refine ⟨⟨_, (hproper.step hstep).1⟩, ?_⟩
  cases actor with
  | writer i =>
    obtain ⟨t, ht, rfl⟩ := Option.map_eq_some_iff.mp hstep
    exact h.accounts.step ht
  | worker =>
    obtain ⟨b, hb, rfl⟩ := Option.map_eq_some_iff.mp hstep
    obtain ⟨hmove, -⟩ := hproper.sound.working.step hb
    exact (List.append_nil requests).symm ▸ h.accounts.move hmove
  | client =>
    obtain rfl := Option.some.inj hstep
    refine (List.append_nil requests).symm ▸ ?_
    rcases c.writers_clientStep with hwriters | hwriters
    · rw [hwriters]
      exact h.accounts
    · rw [hwriters]
      exact h.accounts.congr (fun _ => id) rfl rfl rfl

theorem Followed.follow (h : c.Followed tokenizer before)
    (hran : c.follow tokenizer schedule = some (d, requests)) :
    d.Followed tokenizer (before ++ requests) := by
  induction schedule generalizing c before requests with
  | nil =>
    cases hran
    exact (List.append_nil before).symm ▸ h
  | cons actor rest ih =>
    obtain ⟨next, later, hnext, hlater, rfl⟩ := follow_cons_eq_some hran
    rw [← List.append_assoc]
    exact ih (h.step hnext) hlater

/-- Writers, worker and client in any interleaving: whenever the analyzer is idle, no line is
carried, and a snapshot as late as that of every request counted is published, unless a change that
has tripped the flag of a pass is still to be counted. -/
theorem idle_analysed
    (hran : (start .empty .start batches).follow tokenizer schedule = some (c, requests)) :
    requests.length = c.analyzer.submitted ∧
      (c.analyzer.isIdle = true → c.writers.stage? ≠ some .submit →
        c.analyzer.carried = .empty ∧
          ∀ request ∈ requests, request.snapshot.version ≤ c.analyzer.result.snapshotVersion) := by
  have h := (followed_start tokenizer batches).follow hran
  obtain ⟨passes, hproper⟩ := h.proper
  refine ⟨h.accounts.length_eq, fun hidle hcounted => ?_⟩
  obtain ⟨hqueue, hsend, hup⟩ := hproper.sound.attentive.idle hidle hcounted
  have hversion : c.analyzer.latestSeen.version = c.analyzer.result.snapshotVersion :=
    hup.version_eq
  refine ⟨hup.carried_eq, fun request hmem => ?_⟩
  rcases h.accounts.heard request hmem with hsends | hqueued | hseen
  · exact absurd (hsends.stage_eq hproper.orderly) hsend
  · rw [show c.writers.observed.queue = [] from hqueue] at hqueued
    cases hqueued
  · exact hversion ▸ hseen

/-- A writer has taken the lock for its second change and installed a flag; the first change is
analysed. -/
theorem idle_analysed_amid_notice :
    let first := start .empty .start [[[.insertLine 0 ['a', '!']], [⟨0, 2, 0, ['b']⟩]]]
    let schedule := List.replicate 10 (.writer 0) ++ List.replicate 9 .worker ++
      List.replicate 6 (.writer 0)
    ∃ c request, first.follow .firstBang schedule = some (c, [request]) ∧
      c.analyzer.isIdle = true ∧ c.writers.stage? = some (.cancel 1) ∧
      c.analyzer.carried = .empty ∧ request.snapshot.version = 1 ∧
      1 ≤ c.analyzer.result.snapshotVersion := by
  intro first schedule
  have hrun : (first.follow .firstBang schedule).map (fun (c, requests) =>
      (c.analyzer.isIdle, c.writers.stage?, requests.map (·.snapshot.version))) =
        some (true, some (.cancel 1), [1]) := by decide +kernel
  obtain ⟨⟨c, requests⟩, hran, hrun⟩ := Option.map_eq_some_iff.mp hrun
  simp only [Prod.mk.injEq, List.map_eq_singleton_iff] at hrun
  obtain ⟨hidle, hstage, request, rfl, hversion⟩ := hrun
  obtain ⟨-, hanalysed⟩ := idle_analysed hran
  obtain ⟨hcarried, hall⟩ := hanalysed hidle (by rw [hstage]; simp)
  exact ⟨c, request, hran, hidle, hstage, hcarried, hversion, hversion ▸ hall request (by simp)⟩

/-- A pass over the first change is stopped for the second and settled before this is counted: the
analyzer is idle, and it has analysed nothing. -/
theorem idle_before_analysed :
    let first := start .empty .start [[[.insertLine 0 ['a', '!']], [⟨0, 2, 0, ['b']⟩]]]
    let schedule := List.replicate 10 (.writer 0) ++ List.replicate 3 .worker ++
      List.replicate 7 (.writer 0) ++ List.replicate 2 .worker
    ∃ c request, Reachable .firstBang first c ∧
      first.follow .firstBang schedule = some (c, [request]) ∧ c.analyzer.isIdle = true ∧
      0 ∈ c.analyzer.carried ∧ c.analyzer.result.snapshotVersion < request.snapshot.version := by
  intro first schedule
  have hrun : (first.follow .firstBang schedule).map (fun (c, requests) =>
      (c.analyzer.isIdle, c.analyzer.carried.lines, c.analyzer.result.snapshotVersion,
        requests.map (·.snapshot.version))) = some (true, [0], 0, [1]) := by decide +kernel
  obtain ⟨⟨c, requests⟩, hran, hrun⟩ := Option.map_eq_some_iff.mp hrun
  simp only [Prod.mk.injEq, List.map_eq_singleton_iff] at hrun
  obtain ⟨hidle, hcarried, hpublished, request, rfl, hversion⟩ := hrun
  refine ⟨c, request, reachable_iff_follow.mpr ⟨_, _, hran⟩, hran, hidle, ?_, by omega⟩
  rw [LineSet.mem_def, hcarried]
  exact List.mem_singleton_self 0

end Concurrent

end LineTokens
