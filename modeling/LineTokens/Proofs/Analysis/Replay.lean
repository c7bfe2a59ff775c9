import LineTokens.Proofs.Analysis.Idle
import LineTokens.Proofs.Buffer.Framing

/-! Patches worked off on the slots of a table. An entry for a slot that is there replaces it, and
one for the slot after the last adds one; the entries of a completed pass are of the first kind and
then of the second, with no new slot left out, and make the slots of the table that the pass has
published. -/

namespace LineTokens

/-! ### Entries one by one -/

namespace PatchEntry

variable {entry : PatchEntry} {entries : List PatchEntry} {size : Nat}

/-- An entry that replaces a slot puts its token there. -/
theorem replay?_of_lt (tokens : Nat → Option Token) (hline : entry.line < size)
    (hreplaced : entry.replacedLines = 1) :
    entry.replay? ((List.range' 0 size).map tokens) =
      some ((List.range' 0 size).map (overlay [entry] tokens)) := by
  have hlength : ((List.range' 0 size).map tokens).length = size := by simp
  have hset : ((List.range' 0 size).map tokens).set entry.line entry.tokens.head? =
      (List.range' 0 size).map (overlay [entry] tokens) := by
    refine List.ext_getElem? fun line => ?_
    rw [List.getElem?_set, hlength, if_pos hline, List.getElem?_map, List.getElem?_map]
    by_cases hlt : line < size
    · rw [List.getElem?_range' hlt, Nat.zero_add, Nat.one_mul, Option.map_some, Option.map_some]
      by_cases heq : entry.line = line
      · rw [if_pos heq]
        exact congrArg some (if_pos heq.symm).symm
      · rw [if_neg heq]
        exact congrArg some (if_neg (Ne.symm heq)).symm
    · rw [List.getElem?_eq_none (by simp; omega), if_neg (by omega)]
      rfl
  rw [replay?, hlength, if_pos (by omega), hreplaced, ← hset,
    List.set_eq_take_append_cons_drop, if_pos (by omega)]

/-- An entry for the slot after the last one adds it. -/
theorem replay?_of_eq (tokens : Nat → Option Token) (hline : entry.line = size)
    (hreplaced : entry.replacedLines = 0) :
    entry.replay? ((List.range' 0 size).map tokens) =
      some ((List.range' 0 (size + 1)).map (overlay [entry] tokens)) := by
  have hlength : ((List.range' 0 size).map tokens).length = size := by simp
  have hkept : (List.range' 0 size).map (overlay [entry] tokens) =
      (List.range' 0 size).map tokens := by
    refine List.map_congr_left fun line hmem => if_neg ?_
    rw [List.mem_range'_1] at hmem
    omega
  have hadded : overlay [entry] tokens size = entry.tokens.head? := if_pos hline.symm
  rw [replay?, hlength, if_pos (by omega), hreplaced, hline, Nat.add_zero,
    List.take_of_length_le (by omega), List.drop_eq_nil_of_le (by omega), List.range'_1_concat,
    List.map_append, hkept, Nat.zero_add, List.map_singleton, hadded]

theorem foldlM_replay?_kept (tokens : Nat → Option Token)
    (h : ∀ entry ∈ entries, entry.line < size ∧ entry.replacedLines = 1) :
    entries.foldlM (fun slots entry => entry.replay? slots) ((List.range' 0 size).map tokens) =
      some ((List.range' 0 size).map (overlay entries tokens)) := by
  induction entries generalizing tokens with
  | nil => rfl
  | cons entry rest ih =>
    obtain ⟨hline, hreplaced⟩ := h entry List.mem_cons_self
    rw [List.foldlM_cons, replay?_of_lt tokens hline hreplaced]
    exact ih _ fun other hother => h other (List.mem_cons_of_mem _ hother)

theorem foldlM_replay?_appended (tokens : Nat → Option Token)
    (hlines : entries.map (·.line) = List.range' size entries.length)
    (hreplaced : ∀ entry ∈ entries, entry.replacedLines = 0) :
    entries.foldlM (fun slots entry => entry.replay? slots) ((List.range' 0 size).map tokens) =
      some ((List.range' 0 (size + entries.length)).map (overlay entries tokens)) := by
  induction entries generalizing size tokens with
  | nil => rfl
  | cons entry rest ih =>
    rw [List.map_cons, List.length_cons, List.range'_succ, List.cons.injEq] at hlines
    rw [List.foldlM_cons, replay?_of_eq tokens hlines.1 (hreplaced entry List.mem_cons_self),
      List.length_cons, Nat.add_comm rest.length, ← Nat.add_assoc]
    exact ih _ hlines.2 fun other hother => hreplaced other (List.mem_cons_of_mem _ hother)

/-- Entries in ascending order are those below a size and then those from it on. -/
theorem exists_split_of_ascending (entries : List PatchEntry) (size : Nat)
    (h : (entries.map (·.line)).Pairwise (· < ·)) :
    ∃ kept appended, entries = kept ++ appended ∧ (∀ entry ∈ kept, entry.line < size) ∧
      ∀ entry ∈ appended, size ≤ entry.line := by
  induction entries with
  | nil => exact ⟨[], [], rfl, by simp, by simp⟩
  | cons entry rest ih =>
    obtain ⟨hfirst, hrest⟩ := List.pairwise_cons.mp h
    by_cases hlt : entry.line < size
    · obtain ⟨kept, appended, rfl, hkept, happended⟩ := ih hrest
      refine ⟨entry :: kept, appended, rfl, fun other hother => ?_, happended⟩
      rcases List.mem_cons.mp hother with rfl | hother
      · exact hlt
      · exact hkept other hother
    · refine ⟨[], entry :: rest, rfl, by simp, fun other hother => ?_⟩
      rcases List.mem_cons.mp hother with rfl | hother
      · omega
      · have hless : entry.line < other.line := hfirst _ (List.mem_map_of_mem hother)
        omega

end PatchEntry

/-! ### Patches -/

/-- The patch of a pass on top of `before` makes the slots published as `after`: slots with an entry
get its one token or none, new slots all have an entry, at the end, and other slots stay. -/
structure Patch.Replays (patch : Patch) (before after : AnalysisResult) : Prop where
  version_eq : patch.version = before.version + 1
  published_eq : after.version = patch.version
  ascending : (patch.entries.map (·.line)).Pairwise (· < ·)
  replay_eq : patch.replay? before.table.slots = some after.table.slots
  tokens_eq : ∀ entry ∈ patch.entries, entry.tokens = (after.table.get? entry.line).toList
  appended_last : ∃ kept appended, patch.entries = kept ++ appended ∧
    (∀ entry ∈ kept, entry.line < before.table.slots.length ∧ entry.replacedLines = 1) ∧
    (∀ entry ∈ appended, entry.replacedLines = 0) ∧
    appended.map (·.line) = List.range' before.table.slots.length appended.length ∧
    after.table.slots.length = before.table.slots.length + appended.length
  unchanged : ∀ line < before.table.slots.length, line ∉ patch.entries.map (·.line) →
    after.table.slots[line]? = before.table.slots[line]?

/-- A patch that leads from one result to the next and has an entry for each new slot. -/
theorem Patch.Leads.replays {patch : Patch} {before after : AnalysisResult}
    (h : patch.Leads before after) (hbefore : before.table.Canonical)
    (hafter : after.table.Canonical) (hsize : before.table.size ≤ after.table.size)
    (hnew : ∀ line, before.table.size ≤ line → line < after.table.size →
      line ∈ patch.entries.map (·.line)) : patch.Replays before after := by
  obtain ⟨kept, appended, hentries, hkept, happended⟩ :=
    PatchEntry.exists_split_of_ascending patch.entries before.table.size h.ascending
  have hreplaced := h.replacedLines_eq
  have hascending := h.ascending
  rw [hentries] at hreplaced
  rw [hentries, List.map_append] at hascending
  have hkeptOne : ∀ entry ∈ kept, entry.line < before.table.size ∧ entry.replacedLines = 1 :=
    fun entry hmem => ⟨hkept entry hmem,
      (hreplaced entry (List.mem_append_left _ hmem)).trans (if_pos (hkept entry hmem))⟩
  have happendedNone : ∀ entry ∈ appended, entry.replacedLines = 0 := fun entry hmem =>
    (hreplaced entry (List.mem_append_right _ hmem)).trans
      (if_neg (Nat.not_lt.mpr (happended entry hmem)))
  -- The appended lines are all the new ones, and both lists ascend.
  have hlines : appended.map (·.line) =
      List.range' before.table.size (after.table.size - before.table.size) := by
    have hpairwise : (appended.map (·.line)).Pairwise (· < ·) :=
      (List.pairwise_append.mp hascending).2.1
    refine congrArg LineSet.lines (?_ : (⟨_, hpairwise⟩ : LineSet) = ⟨_, List.pairwise_lt_range'⟩)
    refine LineSet.eq_of_mem_iff fun line => ?_
    rw [LineSet.mem_def, LineSet.mem_def, List.mem_range'_1]
    constructor
    · intro hmem
      obtain ⟨entry, hentry, rfl⟩ := List.mem_map.mp hmem
      have hle := happended entry hentry
      have hlt := (h.entries_new entry (hentries ▸ List.mem_append_right _ hentry)).1
      omega
    · rintro ⟨hle, hlt⟩
      have hmem := hnew line hle (by omega)
      rw [hentries, List.map_append, List.mem_append] at hmem
      refine hmem.resolve_left fun hold => ?_
      obtain ⟨entry, hentry, rfl⟩ := List.mem_map.mp hold
      exact absurd (hkept entry hentry) (Nat.not_lt.mpr hle)
  have hcount : after.table.size = before.table.size + appended.length := by
    have hlength := congrArg List.length hlines
    rw [List.length_map, List.length_range'] at hlength
    omega
  rw [hcount, Nat.add_sub_cancel_left] at hlines
  refine ⟨?_, h.patch_version_eq.symm, h.ascending, ?_, fun entry hmem => ?_, ?_,
    fun line hline hout => ?_⟩
  · rw [h.patch_version_eq, h.version_eq]
  · rw [Patch.replay?, hentries, List.foldlM_append, hbefore.slots_eq_map,
      PatchEntry.foldlM_replay?_kept _ hkeptOne, Option.bind_eq_bind, Option.bind_some,
      PatchEntry.foldlM_replay?_appended _ hlines happendedNone, ← hcount, hafter.slots_eq_map,
      ← h.overlay_eq, hentries, overlay, overlay, overlay, List.foldl_append]
  · exact (h.entries_new entry hmem).2
  · rw [← hbefore.size_eq, ← hafter.size_eq]
    exact ⟨kept, appended, hentries, hkeptOne, happendedNone, hlines, hcount⟩
  · rw [← hbefore.size_eq] at hline
    rw [hbefore.getElem?_slots hline, hafter.getElem?_slots (by omega), ← h.overlay_eq,
      overlay_of_notMem hout]

/-- With commits told one at a time, no new slot is left out: the lines carried hold all that has
been appended up to the newest snapshot seen. -/
theorem Relay.Exact.replays {tokenizer : Tokenizer} {x : Relay} (h : x.Exact tokenizer)
    (hsound : x.Sound tokenizer) {done : Pass} (hdone : x.analyzer.Completes tokenizer done) :
    done.patch.Replays x.analyzer.result done.result := by
  have hcanonical := h.tokenizes.canonical
  have hheld := hsound.receives.seen_held
  have hchained := hsound.chained
  have hle := hsound.published_le
  have hbefore := hchained.wellFormed (hle.trans hheld.version_le)
  obtain ⟨consumed, flag, rfl⟩ := hdone.eq_complete
  have hsize : (x.analyzer.result.complete tokenizer x.analyzer.latestSeen x.analyzer.carried
      consumed flag).result.table.size = max x.analyzer.result.table.size
        x.analyzer.latestSeen.lineCount := AnalysisResult.size_complete hcanonical
  refine (AnalysisResult.leads_complete hcanonical).replays hcanonical
    (AnalysisResult.finishedFrom_start hcanonical).roomy.canonical
    (hsize.symm ▸ Nat.le_max_left _ _) fun line hfrom hlt => ?_
  have hmax : line < max x.analyzer.result.table.size x.analyzer.latestSeen.lineCount :=
    hsize ▸ hlt
  have hseen : line < x.analyzer.latestSeen.lineCount := by omega
  rw [h.tokenizes.size_eq, hbefore.length_lines] at hfrom
  rw [← hheld.snapshot_eq] at hseen
  obtain ⟨k, change, hk, hkb, hget, hline⟩ :=
    hchained.exists_changed_of_le hle hheld.version_le hfrom hseen
  rw [AnalysisResult.lines_complete, List.mem_filter]
  refine ⟨h.carried k change hk hkb hget line hline, ?_⟩
  rw [hheld.snapshot_eq] at hseen
  exact (hheld.wellFormed hchained).isSome_line?_iff.mpr hseen

/-! ### Passes of a schedule -/

namespace Concurrent

variable {tokenizer : Tokenizer} {c d : Concurrent} {actor : Actor} {schedule : List Actor}
  {patches : List Patch} {results : List AnalysisResult} {requests : List Change}

/-- The patch that a step from `c` to `d` puts in place. -/
def storedPatch? (c d : Concurrent) : Actor → Option Patch
  | .worker =>
    match c.analyzer.phase with
    | .storingPatch .. => d.analyzer.patch
    | _ => none
  | .writer _ | .client => none

theorem storedPatch?_eq_none
    (h : ∀ consumed result patch, c.analyzer.phase ≠ .storingPatch consumed result patch) :
    storedPatch? c d actor = none := by
  cases actor with
  | writer i | client => rfl
  | worker =>
    rw [storedPatch?]
    split
    · rename_i hphase
      exact absurd hphase (h _ _ _)
    · rfl

theorem storedPatch?_eq_some {consumed : Nat} {result : AnalysisResult} {patch : Patch}
    (hphase : c.analyzer.phase = .storingPatch consumed result patch)
    (hpatch : d.analyzer.patch = some patch) : storedPatch? c d .worker = some patch := by
  rw [storedPatch?, hphase, hpatch]

/-- The result that a step from `c` to `d` publishes. -/
def publishedResult? (c d : Concurrent) : Actor → Option AnalysisResult
  | .worker => if c.analyzer.isPublishing then some d.analyzer.result else none
  | .writer _ | .client => none

/-- What is seen of the steps of a schedule, in order. -/
def watch {α : Type} (see : Concurrent → Concurrent → Actor → Option α) (tokenizer : Tokenizer)
    (c : Concurrent) : List Actor → List α
  | [] => []
  | actor :: rest =>
    match c.step tokenizer actor with
    | none => []
    | some d => (see c d actor).toList ++ d.watch see tokenizer rest

/-- What holds of the patches stored and the results published so far, with a single writer. -/
structure Replayed (tokenizer : Tokenizer) (patches : List Patch) (results : List AnalysisResult)
    (c : Concurrent) : Prop where
  proper : c.Proper tokenizer results.length
  alone : c.writers.writers.length ≤ 1
  stored_eq : patches.length = results.length + if c.analyzer.isPublishing then 1 else 0
  current : (AnalysisResult.empty :: results)[results.length]? = some c.analyzer.result
  passes : ∀ (k : Nat) published, results[k]? = some published →
    ∃ patch : Patch, ∃ base, patches[k]? = some patch ∧
      (AnalysisResult.empty :: results)[k]? = some base ∧ patch.Replays base published
  /-- The patch of a result that is about to be published has been stored. -/
  pending : ∀ consumed result, c.analyzer.phase = .storingResult consumed result →
    ∃ patch : Patch, patches[results.length]? = some patch ∧
      patch.Replays c.analyzer.result result

theorem replayed_start (batches : List (List Edit)) :
    (start .empty .start [batches]).Replayed tokenizer [] [] := by
  refine ⟨proper_start _, Nat.le_refl _, rfl, rfl, fun k published hget => ?_, ?_⟩
  · cases hget
  · intro consumed result hphase
    cases hphase

/-- Steps by which no pass comes to its end and no result is published. -/
theorem Replayed.congr (h : c.Replayed tokenizer patches results)
    (hproper : d.Proper tokenizer results.length)
    (hlength : d.writers.writers.length = c.writers.writers.length)
    (hpublishing : d.analyzer.isPublishing = c.analyzer.isPublishing)
    (hphase : ∀ consumed result, d.analyzer.phase = .storingResult consumed result →
      c.analyzer.phase = .storingResult consumed result)
    (hresult : d.analyzer.result = c.analyzer.result) : d.Replayed tokenizer patches results := by
  refine ⟨hproper, hlength ▸ h.alone, hpublishing ▸ h.stored_eq, hresult ▸ h.current, h.passes,
    fun consumed result hstoring => ?_⟩
  rw [hresult]
  exact h.pending consumed result (hphase consumed result hstoring)

theorem publishes_eq_length (c d : Concurrent) (actor : Actor) :
    c.publishes actor = (publishedResult? c d actor).toList.length := by
  cases actor with
  | writer i => rfl
  | client => rfl
  | worker =>
    rw [publishes, publishedResult?]
    split <;> rfl

/-- A step of the worker that is not one of the two at the end of a pass. -/
theorem Replayed.quiet (h : c.Replayed tokenizer patches results)
    (hstep : c.step tokenizer .worker = some d)
    (hbefore : c.analyzer.isPublishing = false) (hafter : d.analyzer.isPublishing = false)
    (hstoring : ∀ consumed result patch, c.analyzer.phase ≠ .storingPatch consumed result patch)
    (hresult : d.analyzer.result = c.analyzer.result) :
    d.Replayed tokenizer (patches ++ (storedPatch? c d .worker).toList)
      (results ++ (publishedResult? c d .worker).toList) := by
  have hstored : storedPatch? c d .worker = none := storedPatch?_eq_none hstoring
  have hpublished : publishedResult? c d .worker = none := by
    rw [publishedResult?, hbefore]
    rfl
  have hproper := (h.proper.step hstep).1
  rw [publishes_eq_length c d, hpublished] at hproper
  rw [hstored, hpublished, Option.toList_none, List.append_nil, Option.toList_none,
    List.append_nil]
  refine h.congr hproper (length_step hstep) (hafter.trans hbefore.symm)
    (fun consumed result hphase => ?_) hresult
  rw [Analyzer.isPublishing_of_storing hphase] at hafter
  cases hafter

/-- A pass has come to its end: its patch, which makes the slots of the result to be published, is
stored. -/
theorem Replayed.store (h : c.Replayed tokenizer patches results)
    (hstep : c.step tokenizer .worker = some d) {consumed : Nat} {done : Pass}
    (hdone : c.analyzer.Completes tokenizer done)
    (hstoring : c.analyzer.phase = .storingPatch consumed done.result done.patch)
    (hphase : d.analyzer.phase = .storingResult consumed done.result)
    (hpatch : d.analyzer.patch = some done.patch)
    (hresult : d.analyzer.result = c.analyzer.result) :
    d.Replayed tokenizer (patches ++ (storedPatch? c d .worker).toList)
      (results ++ (publishedResult? c d .worker).toList) := by
  have hstored : storedPatch? c d .worker = some done.patch := storedPatch?_eq_some hstoring hpatch
  have hquiet : c.analyzer.isPublishing = false := by rw [Analyzer.isPublishing, hstoring]
  have hpublished : publishedResult? c d .worker = none := by
    rw [publishedResult?, hquiet]
    rfl
  have hproper := (h.proper.step hstep).1
  have hstoredEq := h.stored_eq
  rw [publishes_eq_length c d, hpublished] at hproper
  rw [hquiet] at hstoredEq
  have hlength : patches.length = results.length := hstoredEq
  have hreplays : done.patch.Replays c.analyzer.result done.result :=
    (h.proper.exact h.alone).replays h.proper.sound hdone
  rw [hstored, hpublished, Option.toList_none, List.append_nil, Option.toList_some]
  refine ⟨hproper, length_step hstep ▸ h.alone, ?_, hresult ▸ h.current,
    fun k published hget => ?_, fun _ result hstoringResult => ⟨done.patch, ?_, ?_⟩⟩
  · rw [Analyzer.isPublishing_of_storing hphase, List.length_append, hlength]
    rfl
  · obtain ⟨earlier, base, hearlier, hrest⟩ := h.passes k published hget
    have hlt := (List.getElem?_eq_some_iff.mp hearlier).1
    exact ⟨earlier, base, (List.getElem?_append_left hlt).trans hearlier, hrest⟩
  · rw [← hlength]
    simp
  · rw [hphase] at hstoringResult
    cases hstoringResult
    rw [hresult]
    exact hreplays

/-- The result of the patch stored last is published. -/
theorem Replayed.publish (h : c.Replayed tokenizer patches results)
    (hstep : c.step tokenizer .worker = some d) {consumed : Nat} {result : AnalysisResult}
    (hstoring : c.analyzer.phase = .storingResult consumed result)
    (hphase : d.analyzer.phase = .settling consumed) (hresult : d.analyzer.result = result) :
    d.Replayed tokenizer (patches ++ (storedPatch? c d .worker).toList)
      (results ++ (publishedResult? c d .worker).toList) := by
  have hstored : storedPatch? c d .worker = none := by
    refine storedPatch?_eq_none fun _ _ _ hphase => ?_
    cases hstoring.symm.trans hphase
  have hpublishing := Analyzer.isPublishing_of_storing hstoring
  have hpublished : publishedResult? c d .worker = some result := by
    rw [publishedResult?, hpublishing, hresult]
    rfl
  have hproper := (h.proper.step hstep).1
  have hlength := h.stored_eq
  rw [publishes_eq_length c d, hpublished] at hproper
  rw [hpublishing] at hlength
  rw [hstored, hpublished, Option.toList_none, List.append_nil, Option.toList_some]
  refine ⟨?_, length_step hstep ▸ h.alone, ?_, ?_, fun k published hget => ?_,
    fun _ _ hnext => ?_⟩
  · rw [List.length_append]
    exact hproper
  · rw [Analyzer.isPublishing, hphase, List.length_append]
    exact hlength
  · rw [hresult, List.length_append]
    simp
  · rcases Nat.lt_trichotomy k results.length with hlt | rfl | hgt
    · rw [List.getElem?_append_left hlt] at hget
      obtain ⟨patch, base, hpatch, hbase, hreplays⟩ := h.passes k published hget
      refine ⟨patch, base, hpatch, ?_, hreplays⟩
      rw [← List.cons_append, List.getElem?_append_left (by simp; omega)]
      exact hbase
    · obtain rfl : result = published := by simpa using hget
      obtain ⟨patch, hpatch, hreplays⟩ := h.pending _ _ hstoring
      refine ⟨patch, c.analyzer.result, hpatch, ?_, hreplays⟩
      rw [← List.cons_append, List.getElem?_append_left (by simp)]
      exact h.current
    · rw [List.getElem?_eq_none (by simp; omega)] at hget
      cases hget
  · rw [hphase] at hnext
    cases hnext

theorem Replayed.work (h : c.Replayed tokenizer patches results)
    (hstep : c.step tokenizer .worker = some d) :
    d.Replayed tokenizer (patches ++ (storedPatch? c d .worker).toList)
      (results ++ (publishedResult? c d .worker).toList) := by
  obtain ⟨b, hb, rfl⟩ := Option.map_eq_some_iff.mp hstep
  have hworking : c.analyzer.Working tokenizer := h.proper.sound.working
  cases hworking.publishes hb with
  | quiet hstoring hbefore hafter _ hresult => exact h.quiet hstep hbefore hafter hstoring hresult
  | store consumed done hdone hbefore hafter hpatch hresult =>
    exact h.store hstep hdone hbefore hafter hpatch hresult
  | publish consumed done _ hbefore hafter _ hresult => exact h.publish hstep hbefore hafter hresult

theorem Replayed.step (h : c.Replayed tokenizer patches results)
    (hstep : c.step tokenizer actor = some d) :
    d.Replayed tokenizer (patches ++ (storedPatch? c d actor).toList)
      (results ++ (publishedResult? c d actor).toList) := by
  have hproper := (h.proper.step hstep).1
  have hlength := length_step hstep
  cases actor with
  | worker => exact h.work hstep
  | writer i =>
    obtain ⟨t, ht, rfl⟩ := Option.map_eq_some_iff.mp hstep
    obtain ⟨-, heffect⟩ := effect_step h.proper.orderly ht
    have hphase : t.observed.phase = c.writers.observed.phase := heffect.phase_eq
    rw [storedPatch?, publishedResult?, Option.toList_none, List.append_nil, Option.toList_none,
      List.append_nil]
    exact h.congr hproper hlength (Analyzer.isPublishing_congr hphase)
      (fun _ _ hstoring => hphase.symm.trans hstoring) heffect.result_eq
  | client =>
    obtain rfl := Option.some.inj hstep
    rw [storedPatch?, publishedResult?, Option.toList_none, List.append_nil, Option.toList_none,
      List.append_nil]
    have hsame : c.clientStep.analyzer.phase = c.analyzer.phase ∧
        c.clientStep.analyzer.result = c.analyzer.result := by
      rcases c.writers_clientStep with hwriters | hwriters <;>
        rw [Concurrent.analyzer, hwriters] <;> exact ⟨rfl, rfl⟩
    exact h.congr hproper hlength (Analyzer.isPublishing_congr hsame.1)
      (fun _ _ hstoring => hsame.1.symm.trans hstoring) hsame.2

theorem Replayed.follow (h : c.Replayed tokenizer patches results)
    (hran : c.follow tokenizer schedule = some (d, requests)) :
    d.Replayed tokenizer (patches ++ c.watch storedPatch? tokenizer schedule)
      (results ++ c.watch publishedResult? tokenizer schedule) := by
  induction schedule generalizing c patches results requests with
  | nil =>
    cases hran
    simpa [watch] using h
  | cons actor rest ih =>
    obtain ⟨next, later, hnext, hlater, -⟩ := follow_cons_eq_some hran
    have hrest := ih (h.step hnext) hlater
    rw [watch, watch, hnext]
    simpa only [List.append_assoc] using hrest

/-- A single writer, the worker and a client in any interleaving: for each result that a pass has
published, a patch was stored that makes its slots from those of the result before it. -/
theorem stored_patches_replay {batches : List (List Edit)}
    (hran : (start .empty .start [batches]).follow tokenizer schedule = some (c, requests)) :
    let first := start .empty .start [batches]
    let patches := first.watch storedPatch? tokenizer schedule
    let results := first.watch publishedResult? tokenizer schedule
    (AnalysisResult.empty :: results).getLast? = some c.analyzer.result ∧
    patches.length = results.length + (if c.analyzer.isPublishing then 1 else 0) ∧
    ∀ (k : Nat) published, results[k]? = some published →
      ∃ patch : Patch, ∃ base, patches[k]? = some patch ∧
        (AnalysisResult.empty :: results)[k]? = some base ∧ patch.Replays base published := by
  intro first patches results
  have h : c.Replayed tokenizer patches results := (replayed_start batches).follow hran
  refine ⟨?_, h.stored_eq, h.passes⟩
  rw [List.getLast?_eq_getElem?]
  exact h.current

/-- The second of two passes is superseded while it works on the first line, and the one that
completes instead has two lines to append. -/
theorem stored_patches_replay_after_superseded_pass :
    let first := start .empty .start [[[.insertLine 0 ['a', '!']],
      [⟨0, 2, 0, ['b']⟩, .insertLine 1 ['c', '!']], [⟨1, 0, 0, ['x']⟩, .insertLine 2 ['d']]]]
    let schedule := List.replicate 10 (.writer 0) ++ List.replicate 9 .worker ++
      List.replicate 10 (.writer 0) ++ List.replicate 4 .worker ++
      List.replicate 10 (.writer 0) ++ List.replicate 16 .worker
    let base : AnalysisResult := ⟨1, 1, ⟨[[some ⟨0, 1, 1, .holds⟩]], 1⟩⟩
    let published : AnalysisResult :=
      ⟨2, 3, ⟨[[some ⟨0, 1, 1, .fails⟩, some ⟨1, 2, 1, .holds⟩, none]], 3⟩⟩
    let patch : Patch := ⟨2, [⟨0, 1, [⟨0, 1, 1, .fails⟩]⟩, ⟨1, 0, [⟨1, 2, 1, .holds⟩]⟩, ⟨2, 0, []⟩]⟩
    (∃ c requests, first.follow .firstBang schedule = some (c, requests)) ∧
      (first.watch storedPatch? .firstBang schedule)[1]? = some patch ∧
      first.watch publishedResult? .firstBang schedule = [base, published] ∧
      patch.Replays base published := by
  intro first schedule base published patch
  have hruns : (first.follow .firstBang schedule).isSome = true := by decide +kernel
  obtain ⟨⟨c, requests⟩, hran⟩ := Option.isSome_iff_exists.mp hruns
  have hpatch : (first.watch storedPatch? .firstBang schedule)[1]? = some patch := by
    decide +kernel
  have hresults : first.watch publishedResult? .firstBang schedule = [base, published] := by
    decide +kernel
  obtain ⟨-, -, hpasses⟩ := stored_patches_replay hran
  rw [hresults] at hpasses
  obtain ⟨other, before, hother, hbefore, hreplays⟩ := hpasses 1 published rfl
  obtain rfl : patch = other := Option.some.inj (hpatch.symm.trans hother)
  obtain rfl : base = before := Option.some.inj hbefore
  exact ⟨⟨c, requests, hran⟩, hpatch, hresults, hreplays⟩

end Concurrent

end LineTokens
