import LineTokens.Proofs.Buffer.Commuting
import LineTokens.Proofs.Buffer.Linearizable
import Mathlib.Data.List.Induction

/-! Writers that keep to lines of their own. Their batches commute, so however the steps of the
writers are interleaved, the buffer ends as if each writer had made all of its calls before the next
one began. A call that is refused or changes nothing may be decided by a snapshot that is no longer
current; it would have come to the same on the current one. -/

namespace LineTokens

variable {ω σ : Type}

/-- The writers' batches address lines that exist, and none that a batch of another writer
addresses. -/
structure Confined (count : Nat) (calls : List (List (List Edit))) : Prop where
  within : ∀ mine ∈ calls, ∀ batch ∈ mine, Edit.Within count batch
  disjoint : calls.Pairwise fun mine others =>
    ∀ batch ∈ mine, ∀ other ∈ others, Edit.LineDisjoint batch other

/-- A writer and the batch of one of its calls. -/
def IsCall (calls : List (List (List Edit))) (call : Nat × List Edit) : Prop :=
  ∃ mine, calls[call.1]? = some mine ∧ call.2 ∈ mine

namespace Confined

variable {count : Nat} {calls : List (List (List Edit))} {call other : Nat × List Edit}

theorem within_call (h : Confined count calls) (hcall : IsCall calls call) :
    Edit.Within count call.2 := by
  obtain ⟨mine, hmine, hbatch⟩ := hcall
  exact h.within mine (List.mem_of_getElem? hmine) call.2 hbatch

theorem disjoint_calls (h : Confined count calls) (hcall : IsCall calls call)
    (hother : IsCall calls other) (hne : call.1 ≠ other.1) : Edit.LineDisjoint call.2 other.2 := by
  obtain ⟨mine, hmine, hbatch⟩ := hcall
  obtain ⟨others, hothers, hbatch'⟩ := hother
  obtain ⟨hlt, rfl⟩ := List.getElem?_eq_some_iff.mp hmine
  obtain ⟨hlt', rfl⟩ := List.getElem?_eq_some_iff.mp hothers
  have hdisjoint := List.pairwise_iff_getElem.mp h.disjoint
  rcases Nat.lt_or_gt_of_ne hne with h1 | h1
  · exact hdisjoint _ _ hlt hlt' h1 _ hbatch _ hbatch'
  · exact (hdisjoint _ _ hlt' hlt h1 _ hbatch' _ hbatch).symm

theorem of_append {more : List (List (List Edit))}
    (h : Confined count (calls ++ more)) : Confined count calls where
  within own hown := h.within own (List.mem_append_left _ hown)
  disjoint := (List.pairwise_append.mp h.disjoint).1

end Confined

/-! ### Calls in any order -/

/-- A call is among those of its writer. -/
theorem mem_calls_of_writer {made : List (Nat × List Edit)} {call : Nat × List Edit}
    (h : call ∈ made) : call.2 ∈ (made.filter (·.1 = call.1)).map Prod.snd :=
  List.mem_map_of_mem (List.mem_filter.mpr ⟨h, by simp⟩)

/-- The calls of writer `i` among those of all writers but `j`. -/
theorem filter_filter_writer (i j : Nat) (made : List (Nat × List Edit)) :
    (made.filter (·.1 ≠ j)).filter (·.1 = i) = if i = j then [] else made.filter (·.1 = i) := by
  rw [List.filter_filter]
  split
  · rename_i hij
    exact List.filter_eq_nil_iff.mpr fun call _ => by simp [hij]
  · rename_i hij
    refine List.filter_congr fun call _ => ?_
    by_cases hcall : call.1 = i <;> simp [hcall, hij]

namespace Snapshot

/-- The snapshot after batches in turn. -/
def afterAll (s : Snapshot) (batches : List (List Edit)) : Snapshot := batches.foldl after s

theorem afterAll_cons (s : Snapshot) (batch : List Edit) (batches : List (List Edit)) :
    s.afterAll (batch :: batches) = (s.after batch).afterAll batches := rfl

theorem afterAll_append (s : Snapshot) (batches more : List (List Edit)) :
    s.afterAll (batches ++ more) = (s.afterAll batches).afterAll more := List.foldl_append

theorem afterAll_concat (s : Snapshot) (batches : List (List Edit)) (batch : List Edit) :
    s.afterAll (batches ++ [batch]) = (s.afterAll batches).after batch := afterAll_append s _ _

theorem replaceAll_eq_afterAll (s : Snapshot) (observerCount : Nat) (batches : List (List Edit)) :
    (TextBuffer.replaceAll ⟨s, observerCount⟩ batches).1 = ⟨s.afterAll batches, observerCount⟩ := by
  induction batches generalizing s with
  | nil => rfl
  | cons batch rest ih =>
    rw [afterAll_cons, ← ih, TextBuffer.replaceAll, TextBuffer.replace, after]
    cases s.apply batch with
    | error error => rfl
    | ok result =>
      cases result with
      | none => rfl
      | some change => rfl

namespace Sized

variable {s : Snapshot} {count : Nat} {calls : List (List (List Edit))}

/-- A batch may as well come after others that it has no line in common with. -/
theorem afterAll_after (h : s.Sized count) {batch : List Edit} (hbatch : Edit.Within count batch)
    {batches : List (List Edit)}
    (hbatches : ∀ other ∈ batches, Edit.Within count other ∧ Edit.LineDisjoint batch other) :
    (s.after batch).afterAll batches = (s.afterAll batches).after batch := by
  induction batches generalizing s with
  | nil => rfl
  | cons other rest ih =>
    obtain ⟨hwithin, hdisjoint⟩ := hbatches other List.mem_cons_self
    rw [afterAll_cons, afterAll_cons, h.after_comm hbatch hwithin hdisjoint]
    exact ih (h.after hwithin) fun other hother => hbatches other (List.mem_cons_of_mem _ hother)

/-- The calls of one writer may as well come after all others. -/
theorem afterAll_gather (h : s.Sized count) (hconfined : Confined count calls)
    {made : List (Nat × List Edit)} (hmade : ∀ call ∈ made, IsCall calls call) (i : Nat) :
    s.afterAll (made.map Prod.snd) =
      (s.afterAll ((made.filter (·.1 ≠ i)).map Prod.snd)).afterAll
        ((made.filter (·.1 = i)).map Prod.snd) := by
  induction made generalizing s with
  | nil => rfl
  | cons call rest ih =>
    have hcall := hmade call List.mem_cons_self
    have hrest : ∀ other ∈ rest, IsCall calls other :=
      fun other hother => hmade other (List.mem_cons_of_mem _ hother)
    have hwithin := hconfined.within_call hcall
    rw [List.map_cons, afterAll_cons, ih (h.after hwithin) hrest]
    by_cases hi : call.1 = i
    · rw [List.filter_cons_of_neg (by simpa using hi), List.filter_cons_of_pos (by simpa using hi),
        List.map_cons, afterAll_cons, h.afterAll_after hwithin]
      rintro batch hbatch
      obtain ⟨other, hother, rfl⟩ := List.mem_map.mp hbatch
      obtain ⟨hmem, hne⟩ := List.mem_filter.mp hother
      refine ⟨hconfined.within_call (hrest other hmem), ?_⟩
      refine hconfined.disjoint_calls hcall (hrest other hmem) fun heq => ?_
      exact of_decide_eq_true hne (heq.symm.trans hi)
    · rw [List.filter_cons_of_pos (by simpa using hi), List.filter_cons_of_neg (by simpa using hi)]
      rfl

/-- Calls in any order that keeps the order of each writer's calls. -/
theorem afterAll_eq_flatten (h : s.Sized count) (hconfined : Confined count calls)
    {made : List (Nat × List Edit)}
    (hmade : ∀ i, (made.filter (·.1 = i)).map Prod.snd = calls[i]?.getD []) :
    s.afterAll (made.map Prod.snd) = s.afterAll calls.flatten := by
  induction calls using List.reverseRecOn generalizing made with
  | nil =>
    cases made with
    | nil => rfl
    | cons call rest => simpa using hmade call.1
  | append_singleton calls mine ih =>
    have hcalls : ∀ call ∈ made, IsCall (calls ++ [mine]) call := by
      intro call hcall
      have hmem := mem_calls_of_writer hcall
      rw [hmade] at hmem
      cases hget : (calls ++ [mine])[call.1]? with
      | none =>
        rw [hget] at hmem
        cases hmem
      | some own =>
        rw [hget] at hmem
        exact ⟨own, hget, hmem⟩
    have hlast : (made.filter (·.1 = calls.length)).map Prod.snd = mine := by
      rw [hmade]
      simp
    have hinit : ∀ i, ((made.filter (·.1 ≠ calls.length)).filter (·.1 = i)).map Prod.snd =
        calls[i]?.getD [] := by
      intro i
      rw [filter_filter_writer]
      split
      · rename_i hi
        rw [hi, List.getElem?_eq_none (Nat.le_refl _)]
        rfl
      · rw [hmade, List.getElem?_append]
        split
        · rfl
        · rw [List.getElem?_eq_none (by simp; omega), List.getElem?_eq_none (by omega)]
    rw [h.afterAll_gather hconfined hcalls calls.length, hlast, ih hconfined.of_append hinit,
      List.flatten_append, afterAll_append, List.flatten_singleton]

end Sized

end Snapshot

/-! ### What the history settles -/

/-- The writer of an event, and the batch of the call that it settles. -/
def BufferEvent.call? (event : BufferEvent) : Option (Nat × List Edit) :=
  event.decision?.map fun decision => (event.writer, decision.1)

namespace History

/-- The calls that are settled, the earliest first. -/
def calls (h : History) : List (Nat × List Edit) := h.each BufferEvent.call?

theorem calls_cons (event : BufferEvent) (h : History) :
    calls (event :: h) = h.calls ++ event.call?.toList := each_cons _ _ _

theorem filter_calls (h : History) (i : Nat) :
    (h.calls.filter (·.1 = i)).map Prod.snd = (h.decisions i).map Prod.fst := by
  induction h with
  | nil => rfl
  | cons event h ih =>
    rw [calls_cons, decisions_cons, List.filter_append, List.map_append, List.map_append, ih,
      BufferEvent.call?, BufferEvent.decisionOf?]
    congr 1
    by_cases hi : event.writer = i
    · rw [if_pos hi]
      cases event.decision? <;> simp [hi]
    · rw [if_neg hi]
      cases event.decision? <;> simp [hi]

/-- A lawful history of writers that make the given calls, at a buffer of `count` lines. -/
structure Calling (count : Nat) (calls : List (List (List Edit))) (first : Cell) (h : History) :
    Prop where
  lawful : h.Lawful first
  sized : first.snapshot.Sized count
  isCall : ∀ call ∈ h.calls, IsCall calls call

namespace Calling

variable {count : Nat} {calls : List (List (List Edit))} {first : Cell} {h : History}
  {event : BufferEvent}

theorem tail (hc : Calling count calls first (event :: h)) : Calling count calls first h := by
  refine ⟨hc.lawful.2, hc.sized, fun call hcall => hc.isCall call ?_⟩
  rw [calls_cons]
  exact List.mem_append_left _ hcall

theorem isCall_head (hc : Calling count calls first (event :: h)) {call : Nat × List Edit}
    (hcall : event.call? = some call) : IsCall calls call := by
  refine hc.isCall call ?_
  rw [calls_cons, hcall]
  exact List.mem_append_right _ (List.mem_singleton_self _)

theorem sized_current (hc : Calling count calls first h) (hconfined : Confined count calls) :
    (h.current first).snapshot.Sized count := by
  induction h with
  | nil => exact hc.sized
  | cons event h ih =>
    have hbefore := ih hc.tail
    have hexplained := hc.lawful.1
    cases hexplained with
    | committed hloaded hcurrent happlied hfresh =>
      rw [← hcurrent] at happlied
      have hwithin := hconfined.within_call (hc.isCall_head rfl)
      have hafter := hbefore.after hwithin
      rw [Snapshot.after_of_change happlied] at hafter
      rw [current_cons_stored rfl]
      exact hafter
    | loaded | unchanged | refused | conflict | told =>
      rw [current_cons_silent rfl]
      exact hbefore

/-- What the other writers have done since then makes no difference to a call. -/
theorem outcome_since {since : History} (hc : Calling count calls first (since ++ h))
    (hconfined : Confined count calls) {i : Nat} (hquiet : ∀ event ∈ since, event.writer ≠ i)
    {batch : List Edit} (hbatch : IsCall calls (i, batch)) :
    (current first (since ++ h)).snapshot.outcome batch =
      (h.current first).snapshot.outcome batch := by
  induction since with
  | nil => rfl
  | cons event since ih =>
    have hbefore := ih hc.tail fun other hother => hquiet other (List.mem_cons_of_mem _ hother)
    have hne := hquiet event List.mem_cons_self
    have hexplained := hc.lawful.1
    cases hexplained with
    | committed hloaded hcurrent happlied hfresh =>
      rw [← hcurrent] at happlied
      have hother := hc.isCall_head rfl
      have hsized := hc.tail.sized_current hconfined
      rw [List.cons_append, current_cons_stored rfl, ← hbefore]
      have hsame := hsized.outcome_after (hconfined.within_call hbatch)
        (hconfined.within_call hother) (hconfined.disjoint_calls hbatch hother (Ne.symm hne))
      rw [Snapshot.after_of_change happlied] at hsame
      exact hsame
    | loaded | unchanged | refused | conflict | told =>
      rw [List.cons_append, current_cons_silent rfl]
      exact hbefore

/-- A call that changed nothing when its cell was loaded changes nothing when it is settled. -/
theorem after_of_loaded (hc : Calling count calls first (event :: h))
    (hconfined : Confined count calls) {i : Nat} {batch : List Edit}
    (hcall : event.call? = some (i, batch)) {seen : Cell} (hloaded : Loaded first h i seen)
    (hunchanged : ∀ changed, seen.snapshot.outcome batch ≠ .ok (some changed)) :
    (h.current first).snapshot.after batch = (h.current first).snapshot := by
  have hbatch := hc.isCall_head hcall
  have hearlier := hc.tail
  obtain ⟨since, before, rfl, hquiet, hcurrent⟩ := hloaded
  have hsame := hearlier.outcome_since hconfined hquiet hbatch
  rw [current_cons_silent rfl, hcurrent] at hsame
  exact Snapshot.after_of_unchanged (hsame ▸ hunchanged)

/-- The current snapshot is the one after all calls that are settled, in the order in which they
were. -/
theorem current_eq_afterAll (hc : Calling count calls first h) (hconfined : Confined count calls) :
    (h.current first).snapshot = first.snapshot.afterAll (h.calls.map Prod.snd) := by
  induction h with
  | nil => rfl
  | cons event h ih =>
    have hbefore := ih hc.tail
    have hnext : ∀ call, event.call? = some call →
        first.snapshot.afterAll ((History.calls (event :: h)).map Prod.snd) =
          (current first h).snapshot.after call.2 := by
      intro call hcall
      rw [calls_cons, hcall, List.map_append, hbefore]
      exact Snapshot.afterAll_concat _ _ _
    have hexplained := hc.lawful.1
    cases hexplained with
    | committed hloaded hcurrent happlied hfresh =>
      rw [← hcurrent] at happlied
      rw [current_cons_stored rfl, hnext _ rfl, Snapshot.after_of_change happlied]
    | unchanged hloaded happlied =>
      rw [current_cons_silent rfl, hnext _ rfl, hc.after_of_loaded hconfined rfl hloaded]
      simp [Snapshot.outcome, happlied, Except.map]
    | refused hloaded happlied =>
      rw [current_cons_silent rfl, hnext _ rfl, hc.after_of_loaded hconfined rfl hloaded]
      simp [Snapshot.outcome, happlied, Except.map]
    | loaded | conflict | told =>
      rw [current_cons_silent rfl, hbefore, calls_cons]
      exact congrArg _ (congrArg _ (List.append_nil _).symm)

end Calling

end History

namespace Writers

theorem Traced.calling {first : Snapshot} {calls : List (List (List Edit))} {t : Writers ω σ}
    (h : t.Traced first calls) (hfirst : first.WellFormed) :
    History.Calling first.lineCount calls ⟨0, first⟩ t.history := by
  refine ⟨h.lawful, ⟨hfirst, rfl⟩, fun call hcall => ?_⟩
  obtain ⟨event, hevent, hread⟩ := History.mem_each.mp hcall
  have hwriter : event.writer = call.1 := by
    obtain ⟨decision, -, rfl⟩ := Option.map_eq_some_iff.mp hread
    rfl
  have hlt : call.1 < calls.length := hwriter ▸ h.writer_lt event hevent
  have hmine : calls[call.1]? = some calls[call.1] := List.getElem?_eq_getElem hlt
  obtain ⟨w, -, hf⟩ := h.exists_follows hmine
  have hmem := mem_calls_of_writer hcall
  rw [History.filter_calls, hf.decisions_eq] at hmem
  obtain ⟨decision, hdecision, hbatch⟩ := List.mem_map.mp hmem
  exact ⟨_, hmine, hbatch ▸ (List.of_mem_zip hdecision).1⟩

/-- Batches on existing lines that have no line in common come to the same in either order: the same
error, no change, or the same lines changed, and the same snapshot at the end. So writers that keep
to existing lines of their own leave the same snapshot however their steps are interleaved: that of
a buffer at which the calls of one writer after the other are made. -/
theorem disjoint_batches_commute {s : Snapshot} (h : s.WellFormed) :
    (∀ edits others, Edit.Within s.lineCount edits → Edit.Within s.lineCount others →
      Edit.LineDisjoint edits others →
        (s.after edits).outcome others = s.outcome others ∧
        (s.after others).outcome edits = s.outcome edits ∧
        (s.after edits).after others = (s.after others).after edits) ∧
    ∀ (obs : Observers ω σ) (observed : ω) (calls : List (List (List Edit))),
      Confined s.lineCount calls →
        ∀ t, Reachable obs (start s observed calls) t → t.isDone = true →
          ∀ observerCount, (TextBuffer.replaceAll ⟨s, observerCount⟩ calls.flatten).1 =
            ⟨t.cell.snapshot, observerCount⟩ := by
  have hsized : s.Sized s.lineCount := ⟨h, rfl⟩
  refine ⟨fun edits others hedits hothers hdisjoint => ⟨?_, ?_, ?_⟩, ?_⟩
  · exact hsized.outcome_after hothers hedits hdisjoint.symm
  · exact hsized.outcome_after hedits hothers hdisjoint
  · exact hsized.after_comm hedits hothers hdisjoint
  · intro obs observed calls hconfined t hreached hdone observerCount
    have htraced : t.Traced s calls := hreached.traced
    have hmade : ∀ i, ((History.calls t.history).filter (·.1 = i)).map Prod.snd =
        calls[i]?.getD [] := by
      intro i
      rw [History.filter_calls]
      cases hmine : calls[i]? with
      | some mine => exact htraced.decisions_of_isDone hdone hmine
      | none =>
        rw [htraced.decisions_of_none hmine]
        rfl
    rw [Snapshot.replaceAll_eq_afterAll, ← hsized.afterAll_eq_flatten hconfined hmade,
      ← (htraced.calling h).current_eq_afterAll hconfined, htraced.cell_eq]

/-- Two writers race on two lines. The first has edits that meet in one column, and a call that is
refused; the second has to build its batch anew, and its calls change the line from which the first
one's offset is counted. -/
theorem disjoint_batches_commute_racing :
    let s : Snapshot := ⟨['a', 'b', '\n', 'c', 'd'], 2, 4, 3⟩
    let edits : List Edit := [⟨1, 1, 1, []⟩, ⟨1, 1, 0, ['x']⟩]
    let others : List Edit := [⟨0, 0, 1, ['y', 'z']⟩]
    let calls : List (List (List Edit)) :=
      [[edits, [⟨1, 9, 0, ['x']⟩]], [others, [⟨0, 3, 0, ['w']⟩]]]
    let first : Writers (List Delivery) Nat := start s [] calls
    let t := first.runRounds (recorders 1) 40
    (s.after others).outcome edits = .ok (some (.ofList [1])) ∧
      (s.after edits).after others = (s.after others).after edits ∧
      Confined s.lineCount calls ∧ Reachable (recorders 1) first t ∧ t.isDone = true ∧
      (TextBuffer.replaceAll ⟨s, 1⟩ calls.flatten).1 = ⟨t.cell.snapshot, 1⟩ ∧
      t.commitments.map (·.writer) = [0, 1, 1] ∧
      t.cell.snapshot = ⟨['y', 'z', 'b', 'w', '\n', 'c', 'x'], 2, 6, 6⟩ := by
  intro s edits others calls first t
  have hrepresents : s.Represents [['a', 'b'], ['c', 'd']] := ⟨rfl, rfl, rfl, by decide⟩
  have hconfined : Confined s.lineCount calls := ⟨by decide, by decide⟩
  have hreached : Reachable (recorders 1) first t := Reachable.start.runRounds 40
  have hdone : t.isDone = true := by decide +kernel
  have hcommute := disjoint_batches_commute (ω := List Delivery) (σ := Nat) hrepresents.wellFormed
  obtain ⟨-, houtcome, hsame⟩ := hcommute.1 edits others (by decide) (by decide) (by decide)
  have halone : s.outcome edits = .ok (some (.ofList [1])) := by decide +kernel
  exact ⟨houtcome.trans halone, hsame, hconfined, hreached, hdone,
    hcommute.2 (recorders 1) [] calls hconfined t hreached hdone 1, by decide +kernel,
    by decide +kernel⟩

end Writers

end LineTokens
