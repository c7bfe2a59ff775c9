import LineTokens.Proofs.Analysis.PassEvents

/-! What the worker has before it, with commits told one at a time while it waits or is stopped in a
call. `Gathered` says that this is just what has been committed since the last completed pass, as
lines that are carried and as requests, and that a pass has been superseded if a request has come
since it was begun. So the events of all its steps fit the commits. -/

namespace LineTokens

namespace Analyzer

variable {tokenizer : Tokenizer} {a b : Analyzer} {commits : Commits} {gate : Gate}

/-- The requests queued are the commits that the worker has not seen, the lines carried are those
changed by the commits that it has seen since the last completed pass, and a pass is superseded if,
and only if, there are requests that it has not seen. -/
structure Gathered (commits : Commits) (a : Analyzer) : Prop where
  queue_eq : a.queue = commits.drop a.latestSeen.version
  carried_iff : ∀ line, line ∈ a.carried ↔
    commits.Names a.result.snapshotVersion a.latestSeen.version line
  flag : ∀ flag, a.phase.flag? = some flag →
    a.queue = [] ∧ flag = a.activeFlag ∨ a.queue ≠ [] ∧ a.flags.isTripped flag = true
  /-- Nothing is told while the queue has just been drained, or a pass is about to be stored. -/
  undisturbed : a.phase.flag? = none → ¬a.phase.Over → a.queue = []
  /-- Nobody takes the patch before the result is published. -/
  stored : a.isPublishing = true → a.patch ≠ none

/-- What holds of an analyzer at all times, with nothing left to tell it of. -/
abbrev Follows (tokenizer : Tokenizer) (commits : Commits) (a : Analyzer) : Prop :=
  Relay.Sound tokenizer ⟨commits, ∅, none, a⟩

theorem gathered_start : start.Gathered [] := by
  refine ⟨rfl, fun line => ?_, fun flag hflag => ?_, fun _ hover => ?_, fun hpublishing => ?_⟩
  · exact iff_of_false LineSet.mem_empty.mp (Commits.not_names_self [] 0 line)
  · cases hflag
  · exact absurd trivial hover
  · cases hpublishing

theorem Completes.of_finish {pass : Pass} (h : a.Completes tokenizer (pass.finish tokenizer)) :
    pass.snapshot = a.latestSeen ∧ pass.base = a.result := by
  obtain ⟨consumed, flag, hfinish⟩ := h.eq_complete
  have hleft : (pass.finish tokenizer).base = pass.base ∧
      (pass.finish tokenizer).snapshot = pass.snapshot := pass.finish_eq
  let started := Pass.start consumed flag a.latestSeen a.result a.carried
  have hright : (started.finish tokenizer).base = a.result ∧
      (started.finish tokenizer).snapshot = a.latestSeen := started.finish_eq
  constructor
  · rw [← hleft.2, hfinish]
    exact hright.2
  · rw [← hleft.1, hfinish]
    exact hright.1

/-- A line that a pass has left and finds in its snapshot is a carried one. -/
theorem Completes.mem_carried {pass : Pass} (h : a.Completes tokenizer (pass.finish tokenizer))
    {line : Nat} (hleft : line ∈ pass.left) (hline : (pass.snapshot.line? line).isSome = true) :
    line ∈ a.carried := by
  obtain ⟨added, hentries, hlines, -⟩ := pass.finish_entries tokenizer
  have hadded : line ∈ added.map (·.line) := by
    rw [hlines]
    exact List.mem_filter.mpr ⟨hleft, hline⟩
  have hmem : line ∈ (pass.finish tokenizer).patch.entries.map (·.line) := by
    rw [show (pass.finish tokenizer).patch.entries = pass.entries ++ added from hentries,
      List.map_append]
    exact List.mem_append_right _ hadded
  obtain ⟨consumed, flag, hfinish⟩ := h.eq_complete
  rw [hfinish, AnalysisResult.lines_complete] at hmem
  exact (List.mem_filter.mp hmem).1

namespace Gathered

/-- All lines carried exist in the newest snapshot seen, so a pass that comes to its end has an
entry for each of them. -/
theorem lines_eq (h : a.Gathered commits) (hsound : a.Follows tokenizer commits) {done : Pass}
    (hdone : a.Completes tokenizer done) :
    done.patch.entries.map (·.line) = a.carried.lines := by
  have hheld : commits.Held a.latestSeen := hsound.receives.seen_held
  have hchained : commits.Chained := hsound.chained
  obtain ⟨consumed, flag, rfl⟩ := hdone.eq_complete
  rw [AnalysisResult.lines_complete, List.filter_eq_self]
  intro line hline
  obtain ⟨k, change, -, hlt, hk, hchanged⟩ := (h.carried_iff line).mp hline
  have hexists := hchained.lt_lineCount hk hlt hheld.version_le hchanged
  rw [hheld.snapshot_eq] at hexists
  exact (hheld.wellFormed hchained).isSome_line?_iff.mpr hexists

/-- The event of each step of the worker fits the commits, and only a completed pass publishes. -/
theorem fits (h : a.Gathered commits) (hsound : a.Follows tokenizer commits)
    {event : Option PassEvent} (hturn : a.Turn tokenizer event b) :
    (∀ own, event = some own → own.Fits commits a.result) ∧
      b.result = (event.bind PassEvent.published?).getD a.result := by
  have hheld : commits.Held a.latestSeen := hsound.receives.seen_held
  have hworking : a.Working tokenizer := hsound.working
  cases hturn with
  | drain | load | abandon | finish | skip | enter | storePatch | settle => exact ⟨nofun, rfl⟩
  | begin consumed flag snapshot hflagged hnewest =>
    refine ⟨fun own howns => ?_, rfl⟩
    cases howns
    rw [latestSeen, hnewest] at hheld
    exact hheld
  | supersede =>
    refine ⟨fun own howns => ?_, rfl⟩
    cases howns
    trivial
  | call pass line left text hchecking huntripped hleft hpresent =>
    refine ⟨fun own howns => ?_, rfl⟩
    cases howns
    rw [Working, hchecking] at hworking
    have hcarried : line ∈ a.carried := hworking.mem_carried
      (by rw [hleft]; exact List.mem_cons_self) (by rw [hpresent]; rfl)
    obtain ⟨hsnapshot, -⟩ := hworking.of_finish
    rw [hsnapshot] at hpresent ⊢
    exact ⟨hheld, hpresent, (h.carried_iff line).mp hcarried⟩
  | publish consumed result hstoring =>
    obtain ⟨done, hdone, rfl, hpatch⟩ := hworking.of_storing hstoring
    obtain ⟨patch, hsome⟩ :=
      Option.ne_none_iff_exists'.mp (h.stored (isPublishing_of_storing hstoring))
    obtain rfl := hpatch patch hsome
    rw [hsome]
    refine ⟨fun own howns => ?_, rfl⟩
    cases howns
    have hlines := h.lines_eq hsound hdone
    have hversion := hdone.snapshotVersion_eq
    refine ⟨hversion ▸ hheld.version_le, hdone.version_eq, rfl, ?_, fun line => ?_⟩
    · rw [hlines]
      exact a.carried.ascending
    · rw [hlines, hversion]
      exact h.carried_iff line

/-- A drained queue has brought the latest snapshot. -/
theorem drain (h : a.Gathered commits) (hsound : a.Follows tokenizer commits)
    (hwaiting : a.phase = .waiting) (hasked : a.queue ≠ []) : a.drain.Gathered commits := by
  have hseen : a.drain.latestSeen.version = commits.length := by
    have hreceives : a.drain.Receives commits ∅ := hsound.receives.move (.drain hwaiting hasked)
    rw [hreceives.latestSeen_eq rfl]
    exact hsound.chained.version_eq le_rfl
  have hle := hsound.receives.seen_held.version_le
  have hpublished := hsound.published_le
  refine ⟨?_, fun line => ?_, fun flag hflag => (by cases hflag), fun _ _ => rfl,
    fun hpublishing => (by cases hpublishing)⟩
  · rw [hseen, List.drop_length]
    rfl
  · rw [mem_carried_drain, h.carried_iff, h.queue_eq, hseen]
    show _ ↔ commits.Names a.result.snapshotVersion commits.length line
    constructor
    · rintro (⟨k, change, hak, hkb, hk, hline⟩ | ⟨change, hmem, hline⟩)
      · exact ⟨k, change, hak, (List.getElem?_eq_some_iff.mp hk).1, hk, hline⟩
      · obtain ⟨k, hk⟩ := List.getElem?_of_mem hmem
        rw [List.getElem?_drop] at hk
        exact ⟨_, change, hpublished.trans (Nat.le_add_right _ _),
          (List.getElem?_eq_some_iff.mp hk).1, hk, hline⟩
    · rintro ⟨k, change, hak, hkb, hk, hline⟩
      by_cases hlt : k < a.latestSeen.version
      · exact .inl ⟨k, change, hak, hlt, hk, hline⟩
      · refine .inr ⟨change, List.mem_of_getElem? (i := k - a.latestSeen.version) ?_, hline⟩
        rw [List.getElem?_drop, Nat.add_sub_cancel' (Nat.le_of_not_lt hlt)]
        exact hk

/-- Within a pass, as long as its flag is looked at. -/
theorem proceed (h : a.Gathered commits) {phase : WorkerPhase}
    (hflag : ∀ flag, phase.flag? = some flag →
      a.phase.flag? = some flag ∨ a.queue = [] ∧ flag = a.activeFlag)
    (hundisturbed : phase.flag? = none → ¬phase.Over → a.queue = [])
    (hquiet : ∀ consumed result, phase ≠ .storingResult consumed result) :
    Gathered commits { a with phase } := by
  refine ⟨h.queue_eq, h.carried_iff, fun flag hf => ?_, hundisturbed, fun hpublishing => ?_⟩
  · exact (hflag flag hf).elim (h.flag flag) .inl
  · unfold isPublishing at hpublishing
    split at hpublishing
    · rename_i hphase
      exact absurd hphase (hquiet _ _)
    · cases hpublishing

theorem turn (h : a.Gathered commits) (hsound : a.Follows tokenizer commits)
    {event : Option PassEvent} (hturn : a.Turn tokenizer event b) : b.Gathered commits := by
  cases hturn with
  | drain hwaiting hasked => exact h.drain hsound hwaiting hasked
  | load consumed hphase =>
    have hqueue := h.undisturbed (by rw [hphase]; rfl) (by rw [hphase]; exact id)
    exact h.proceed (fun flag hflag => .inr ⟨hqueue, (Option.some.inj hflag).symm⟩) nofun nofun
  | abandon | supersede => exact h.proceed nofun (fun _ hover => absurd trivial hover) nofun
  | begin _ _ _ hphase | skip _ _ _ hphase | call _ _ _ _ hphase | enter _ _ _ hphase =>
    exact h.proceed (fun other hflag => .inl (by rw [hphase]; exact hflag)) nofun nofun
  | finish pass hphase huntripped =>
    -- A pass is stored only if nothing has been told since it was begun.
    have hqueue : a.queue = [] := by
      rcases h.flag pass.flag (by rw [hphase]; rfl) with ⟨hqueue, -⟩ | ⟨-, htripped⟩
      · exact hqueue
      · rw [huntripped] at htripped
        cases htripped
    exact h.proceed nofun (fun _ _ => hqueue) nofun
  | storePatch consumed result patch hphase =>
    have hqueue := h.undisturbed (by rw [hphase]; rfl) (by rw [hphase]; exact id)
    exact ⟨h.queue_eq, h.carried_iff, nofun, fun _ _ => hqueue, fun _ => nofun⟩
  | publish consumed result hphase =>
    have hworking : a.Working tokenizer := hsound.working
    obtain ⟨done, hdone, rfl, -⟩ := hworking.of_storing hphase
    refine ⟨h.queue_eq, fun line => ?_, nofun, fun _ hover => absurd trivial hover, nofun⟩
    show line ∈ LineSet.empty ↔ commits.Names done.result.snapshotVersion a.latestSeen.version line
    rw [hdone.snapshotVersion_eq]
    exact iff_of_false LineSet.mem_empty.mp (Commits.not_names_self _ _ _)
  | settle =>
    exact ⟨h.queue_eq, h.carried_iff, nofun, fun _ hover => absurd trivial hover, nofun⟩

/-- Any number of steps. -/
theorem run (h : a.Gathered commits) (hsound : a.Follows tokenizer commits) (gate : Gate)
    (steps : Nat) (calls : List Call) :
    (a.runFor tokenizer gate steps calls).1.Gathered commits ∧
      PassEvent.Lawful commits a.result (a.eventsFor tokenizer gate steps) ∧
      (a.runFor tokenizer gate steps calls).1.result =
        PassEvent.lastPublished a.result (a.eventsFor tokenizer gate steps) := by
  induction steps generalizing a calls with
  | zero => exact ⟨h, trivial, rfl⟩
  | succ steps ih =>
    unfold runFor eventsFor
    cases hstep : a.workerStep tokenizer with
    | none => exact ⟨h, trivial, rfl⟩
    | some b =>
      have hturn := turn_of_step hstep
      obtain ⟨hevent, hresult⟩ := h.fits hsound hturn
      have hb : b.Gathered commits := h.turn hsound hturn
      have hwork : Relay.Step tokenizer True ⟨commits, ∅, none, a⟩ ⟨commits, ∅, none, b⟩ :=
        .work b hstep
      have hfollows : b.Follows tokenizer commits := hsound.step hwork
      have hfirst : PassEvent.Lawful commits a.result (a.event? b).toList ∧
          b.result = PassEvent.lastPublished a.result (a.event? b).toList := by
        rw [hresult]
        cases hcases : a.event? b with
        | none => exact ⟨trivial, rfl⟩
        | some event => exact ⟨⟨hevent event hcases, trivial⟩, rfl⟩
      dsimp only
      rw [PassEvent.lawful_append, PassEvent.lastPublished_append, ← hfirst.2]
      cases b.runningCall? with
      | none =>
        obtain ⟨hlast, hlawful, hpublished⟩ := ih hb hfollows calls
        exact ⟨hlast, ⟨hfirst.1, hlawful⟩, hpublished⟩
      | some call =>
        cases gate with
        | opened =>
          obtain ⟨hlast, hlawful, hpublished⟩ := ih hb hfollows (calls ++ [call])
          exact ⟨hlast, ⟨hfirst.1, hlawful⟩, hpublished⟩
        | closed => exact ⟨hb, ⟨hfirst.1, trivial⟩, rfl⟩

/-- A change told while the worker waits or is stopped in a call. A pass under way is superseded. -/
theorem onChange (h : a.Gathered commits) (hsound : a.Follows tokenizer commits)
    (hrests : a.Rests tokenizer gate) (change : Change) :
    (a.onChange change).Gathered (commits ++ [change]) := by
  have hle : a.latestSeen.version ≤ commits.length := hsound.receives.seen_held.version_le
  have hactive : a.activeFlag < a.flags.make.next := by
    have hlt : a.activeFlag < a.flags.next := hsound.attentive.active_lt
    rw [FlagPool.next_make]
    omega
  have hphase : (a.phase.flag? = none → a.phase.Over) ∧ a.isPublishing = false := by
    rcases hrests with hnone | ⟨-, hcalling⟩
    · obtain ⟨hwaiting, -⟩ := workerStep_eq_none_iff.mp hnone
      rw [isPublishing, hwaiting]
      exact ⟨fun _ => trivial, rfl⟩
    · unfold runningCall? at hcalling
      split at hcalling
      · rename_i hphase
        rw [isPublishing, hphase]
        refine ⟨fun hnone => ?_, rfl⟩
        cases hnone
      · cases hcalling
  refine ⟨?_, fun line => ?_, fun flag hflag => .inr ⟨?_, ?_⟩,
    fun hnone hover => absurd (hphase.1 hnone) hover, fun hpublishing => ?_⟩
  · show a.queue ++ [change] = (commits ++ [change]).drop a.latestSeen.version
    rw [List.drop_append_of_le_length hle, h.queue_eq]
  · exact (h.carried_iff line).trans (Commits.names_append hle _).symm
  · show a.queue ++ [change] ≠ []
    simp
  · show (a.flags.make.trip a.activeFlag).isTripped flag = true
    rw [FlagPool.isTripped_trip _ hactive, FlagPool.isTripped_make, Bool.or_eq_true]
    rcases h.flag flag hflag with ⟨-, rfl⟩ | ⟨-, htripped⟩
    · exact .inl (beq_self_eq_true _)
    · exact .inr htripped
  · rw [show (a.onChange change).isPublishing = a.isPublishing from rfl, hphase.2] at hpublishing
    cases hpublishing

end Gathered

end Analyzer

end LineTokens
