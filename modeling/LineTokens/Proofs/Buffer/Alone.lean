import LineTokens.Proofs.Buffer.Deliveries

/-! A writer that is alone at a buffer. Nothing comes between its steps, so its calls do what
`TextBuffer.replaceAll` does. Each commit is announced before the next one is made, and so the
observers are told of the very changes committed, as `TextBuffer.deliveries` says. -/

namespace LineTokens

theorem TextBuffer.deliveries_eq (buffer : TextBuffer) (told : Change) :
    buffer.deliveries told = deliveriesFrom buffer.observerCount 0 told := by
  rw [deliveries, deliveriesFrom, Nat.sub_zero, List.range_eq_range']

namespace History

variable {first seen : Cell} {h : History}

/-- What a lone writer has loaded last is current. -/
theorem Loaded.current_eq_of_alone {i : Nat} (hloaded : Loaded first h i seen)
    (halone : ∀ event ∈ h, event.writer = i) : h.current first = seen := by
  obtain ⟨since, before, rfl, hquiet, hcurrent⟩ := hloaded
  have hnothing : since = [] := List.eq_nil_iff_forall_not_mem.mpr fun event hevent =>
    hquiet event hevent (halone event (List.mem_append_left _ hevent))
  rw [hnothing, List.nil_append, current_cons_silent rfl, hcurrent]

theorem commitmentsOf_eq_of_alone {i : Nat} (halone : ∀ event ∈ h, event.writer = i) :
    h.commitmentsOf i = h.commitments := by
  refine List.filter_eq_self.mpr fun c hc => decide_eq_true ?_
  obtain ⟨event, hevent, hread⟩ := mem_each.mp hc
  rw [BufferEvent.writer_of_commitment? hread, halone event hevent]

theorem announcementsOf_eq_of_alone {i : Nat} (halone : ∀ event ∈ h, event.writer = i) :
    h.announcementsOf i = h.announcements := by
  refine List.filter_eq_self.mpr fun a ha => decide_eq_true ?_
  obtain ⟨event, hevent, hread⟩ := mem_each.mp ha
  rw [BufferEvent.writer_of_announcement? hread, halone event hevent]

namespace Lawful

/-- The current snapshot is that of the last commit. -/
theorem current_of_concat (hl : Lawful first h) {before : Commits} {last : Change}
    (hlast : h.commitments.map (·.change) = before ++ [last]) :
    (h.current first).snapshot = last.snapshot := by
  induction h with
  | nil => exact absurd hlast.symm (by simp [commitments, each])
  | cons event h ih =>
    obtain ⟨hexplained, hearlier⟩ := hl
    cases hexplained with
    | committed hloaded hcurrent happlied hfresh =>
      rw [commitments_cons, List.map_append] at hlast
      obtain ⟨-, hsame⟩ := List.append_inj' hlast rfl
      rw [current_cons_stored rfl, ← List.singleton_inj.mp hsame]
    | loaded | unchanged | refused | conflict | told =>
      rw [commitments_cons_silent rfl] at hlast
      rw [current_cons_silent rfl]
      exact ih hearlier hlast

/-- The calls of a lone writer are those of a buffer at which its batches are replaced one after
another. -/
theorem replaceAll_decisions (hl : Lawful first h) {i : Nat}
    (halone : ∀ event ∈ h, event.writer = i) (observerCount : Nat) :
    TextBuffer.replaceAll ⟨first.snapshot, observerCount⟩ ((h.decisions i).map Prod.fst) =
      (⟨(h.current first).snapshot, observerCount⟩, h.commitments.map (·.change)) := by
  induction h with
  | nil => rfl
  | cons event h ih =>
    obtain ⟨hexplained, hearlier⟩ := hl
    have halone' : ∀ event ∈ h, event.writer = i := fun e he =>
      halone e (List.mem_cons_of_mem _ he)
    have hbefore := ih hearlier halone'
    rw [decisions_cons_own (halone event List.mem_cons_self), List.map_append,
      TextBuffer.replaceAll_append, hbefore]
    cases hexplained with
    | committed hloaded hcurrent happlied hfresh =>
      rw [← hcurrent] at happlied
      rw [current_cons_stored rfl, commitments_cons]
      simp [BufferEvent.decision?, BufferEvent.commitment?, TextBuffer.replaceAll,
        TextBuffer.replace, happlied]
    | unchanged hloaded happlied | refused hloaded happlied =>
      obtain rfl := halone _ List.mem_cons_self
      rw [← hloaded.current_eq_of_alone halone'] at happlied
      rw [current_cons_silent rfl, commitments_cons_silent rfl]
      simp [BufferEvent.decision?, TextBuffer.replaceAll, TextBuffer.replace, happlied]
    | loaded | conflict | told =>
      rw [current_cons_silent rfl, commitments_cons_silent rfl]
      simp [BufferEvent.decision?, TextBuffer.replaceAll]

end Lawful

end History

namespace Writers

variable {first : Snapshot} {batches : List (List Edit)}

theorem Traced.alone {ω σ : Type} {s : Writers ω σ} (h : s.Traced first [batches]) :
    ∀ event ∈ s.history, event.writer = 0 := fun event hevent =>
  Nat.lt_one_iff.mp (h.writer_lt event hevent)

variable {count i : Nat} {s t : Writers (List Delivery) Nat} {w : Writer Nat}

theorem Traced.index_eq (h : s.Traced first [batches]) (hw : s.writers[i]? = some w) : i = 0 := by
  have hlt := (List.getElem?_eq_some_iff.mp hw).1
  rw [h.length_eq] at hlt
  exact Nat.lt_one_iff.mp hlt

/-- The commit that is announced next is the last one. -/
theorem Reachable.cell_of_locked (hcount : 0 < count)
    (h : Reachable (recorders count) (Writers.start first [] [batches]) s)
    (hw : s.writers[i]? = some w) {own : Change} (hphase : w.phase = .locked own) :
    s.cell.snapshot = own.snapshot := by
  have hannounced := (h.delivers hcount).announced_eq i w hw
  obtain rfl := h.traced.index_eq hw
  rw [hphase, commitmentsOf, History.commitmentsOf_eq_of_alone h.traced.alone] at hannounced
  rw [← h.traced.cell_eq]
  exact h.traced.lawful.current_of_concat hannounced.symm

theorem told_eq_own_of_event {event : BufferEvent} (hhistory : t.history = event :: s.history)
    (hevent : ∀ a, event.announcement? = some a → a.told = a.own)
    (h : ∀ a ∈ s.announcements, a.told = a.own) : ∀ a ∈ t.announcements, a.told = a.own := by
  intro a ha
  rw [announcements, hhistory, History.announcements_cons] at ha
  rcases List.mem_append.mp ha with ha | ha
  · exact h a ha
  · exact hevent a (Option.mem_toList.mp ha)

/-- The observers are told of the very changes that are committed. -/
theorem Reachable.told_eq_own (hcount : 0 < count)
    (h : Reachable (recorders count) (Writers.start first [] [batches]) s) :
    ∀ a ∈ s.announcements, a.told = a.own := by
  induction h with
  | start => exact fun a ha => absurd ha List.not_mem_nil
  | step i hreached hstep ih =>
    obtain ⟨w, hw, hmove⟩ := move_of_step hstep
    cases hmove with
    | begin | refuse | leave | commit | retry =>
      exact told_eq_own_of_event rfl (fun a ha => by cases ha) ih
    | build | unobserved | acquire | skip | goOn | conclude | release => exact ih
    | load hphase hstage =>
      have hcurrent := hreached.cell_of_locked hcount hw hphase
      refine told_eq_own_of_event rfl (fun a ha => ?_) ih
      cases ha
      rw [hcurrent]

/-- A writer that is alone at a buffer has the observers told of its changes one after another, as
`deliveries` says of each; and its calls do what replacing batch by batch does. -/
theorem replaceAll_alone {buffer : TextBuffer} (hobserved : 0 < buffer.observerCount)
    (h : Reachable (recorders buffer.observerCount) (start buffer.current [] [batches]) s)
    (hdone : s.isDone = true) :
    (buffer.replaceAll batches).1 = { buffer with current := s.cell.snapshot } ∧
      s.observed = (buffer.replaceAll batches).2.flatMap buffer.deliveries := by
  have htraced : s.Traced buffer.current [batches] := h.traced
  have hdelivers := h.delivers hobserved
  obtain ⟨howed, hnone⟩ := settled_of_isDone hdone buffer.observerCount
  have hcalls : buffer.replaceAll batches =
      ({ buffer with current := s.cell.snapshot }, s.commitments.map (·.change)) := by
    rw [← htraced.decisions_of_isDone hdone (i := 0) rfl, ← htraced.cell_eq]
    exact htraced.lawful.replaceAll_decisions htraced.alone _
  have hannounced : s.announcements.map (·.own) = s.commitments.map (·.change) := by
    obtain ⟨w, hw, -⟩ := htraced.exists_follows (i := 0) rfl
    have hown := hdelivers.announced_eq 0 w hw
    rw [hnone 0 w hw, Option.toList_none, List.append_nil, announcementsOf, commitmentsOf,
      History.announcementsOf_eq_of_alone htraced.alone,
      History.commitmentsOf_eq_of_alone htraced.alone] at hown
    exact hown
  refine ⟨congrArg Prod.fst hcalls, ?_⟩
  have hall := hdelivers.observed_eq
  rw [howed, List.append_nil] at hall
  rw [hcalls, hall, ← hannounced, List.flatMap_map]
  refine List.flatMap_congr fun a ha => ?_
  rw [buffer.deliveries_eq, h.told_eq_own hobserved a ha]

end Writers

end LineTokens
