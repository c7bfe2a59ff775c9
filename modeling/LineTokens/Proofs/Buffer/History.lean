import LineTokens.Proofs.Buffer.Interleaving
import LineTokens.Proofs.Buffer.Representation

/-! What has happened at a buffer, the latest event first. From the events one reads which cell is
current, which batches were committed and what each call has come to. `Explained` says of an event
why it could happen after the earlier ones; where that holds of every event, the commits are those
that the same batches make one after another. -/

namespace LineTokens

/-- A batch and what the call that made it returns. -/
abbrev Decision := List Edit × Except EditError LineSet

/-- The call returns lines that it changed. -/
def Decision.changes : Decision → Bool
  | (_, .ok lines) => !lines.isEmpty
  | (_, .error _) => false

/-- A batch that a writer committed, and the change that it made. -/
structure Commitment where
  writer : Nat
  batch : List Edit
  change : Change
deriving DecidableEq

/-- What the call returns for it. -/
def Commitment.decision (c : Commitment) : Decision := (c.batch, .ok c.change.changedLines)

namespace BufferEvent

def writer : BufferEvent → Nat
  | loaded i _ | committed i _ _ _ _ | unchanged i _ _ | refused i _ _ _ | conflict i _ _
  | told i _ _ => i

/-- The cell that the event makes the current one. -/
def stored? : BufferEvent → Option Cell
  | committed _ _ _ stored _ => some stored
  | _ => none

def commitment? : BufferEvent → Option Commitment
  | committed i batch _ stored changed => some ⟨i, batch, ⟨stored.snapshot, changed⟩⟩
  | _ => none

/-- What the event settles for a call of its writer. -/
def decision? : BufferEvent → Option Decision
  | committed _ batch _ _ changed => some (batch, .ok changed)
  | unchanged _ batch _ => some (batch, .ok .empty)
  | refused _ batch _ error => some (batch, .error error)
  | _ => none

/-- What the event settles for a call of writer `i`. -/
def decisionOf? (i : Nat) (event : BufferEvent) : Option Decision :=
  if event.writer = i then event.decision? else none

theorem decisionOf?_self (event : BufferEvent) :
    event.decisionOf? event.writer = event.decision? := if_pos rfl

theorem decisionOf?_ne {event : BufferEvent} {i : Nat} (h : event.writer ≠ i) :
    event.decisionOf? i = none := if_neg h

theorem writer_of_commitment? {event : BufferEvent} {c : Commitment}
    (h : event.commitment? = some c) : c.writer = event.writer := by
  cases event <;> cases h
  rfl

end BufferEvent

/-- Events at a buffer, the latest first. -/
abbrev History := List BufferEvent

namespace History

variable {α : Type}

/-- What `read` finds in the events, the earliest first. -/
def each (read : BufferEvent → Option α) (h : History) : List α := (h.filterMap read).reverse

def commitments (h : History) : List Commitment := h.each BufferEvent.commitment?

def commitmentsOf (h : History) (i : Nat) : List Commitment := h.commitments.filter (·.writer = i)

/-- What the calls of writer `i` have come to. -/
def decisions (h : History) (i : Nat) : List Decision := h.each (BufferEvent.decisionOf? i)

/-- The current cell after the events, at a buffer that held `first`. -/
def current (first : Cell) (h : History) : Cell := (h.findSome? BufferEvent.stored?).getD first

theorem each_cons (read : BufferEvent → Option α) (event : BufferEvent) (h : History) :
    each read (event :: h) = each read h ++ (read event).toList := by
  rw [each, List.filterMap_cons]
  cases read event <;> simp [each]

theorem mem_each {read : BufferEvent → Option α} {h : History} {a : α} :
    a ∈ each read h ↔ ∃ event ∈ h, read event = some a := by
  simp [each]

/-- Events that tell nothing of the kind add nothing of it. -/
theorem filter_each_append {read : BufferEvent → Option α} {p : α → Bool} {events : History}
    (hno : ∀ e ∈ events, ∀ a, read e = some a → p a = false) (h : History) :
    (each read (events ++ h)).filter p = (each read h).filter p := by
  have hnone : (each read events).filter p = [] := by
    refine List.filter_eq_nil_iff.mpr fun a ha => ?_
    obtain ⟨e, he, hread⟩ := mem_each.mp ha
    rw [hno e he a hread]
    exact Bool.false_ne_true
  rw [each, List.filterMap_append, List.reverse_append, List.filter_append]
  exact (congrArg _ hnone).trans (List.append_nil _)

theorem commitments_cons (event : BufferEvent) (h : History) :
    commitments (event :: h) = h.commitments ++ event.commitment?.toList :=
  each_cons _ _ _

theorem commitments_cons_silent {event : BufferEvent} (hsilent : event.commitment? = none)
    (h : History) : commitments (event :: h) = h.commitments := by
  rw [commitments_cons, hsilent]
  exact List.append_nil _

theorem commitmentsOf_committed (h : History) (i : Nat) (batch : List Edit) (seen stored : Cell)
    (changed : LineSet) :
    commitmentsOf (.committed i batch seen stored changed :: h) i =
      h.commitmentsOf i ++ [⟨i, batch, ⟨stored.snapshot, changed⟩⟩] := by
  unfold commitmentsOf
  rw [commitments_cons, List.filter_append]
  simp [BufferEvent.commitment?]

theorem decisions_cons (event : BufferEvent) (h : History) (i : Nat) :
    decisions (event :: h) i = h.decisions i ++ (event.decisionOf? i).toList :=
  each_cons _ _ _

theorem decisions_cons_own {event : BufferEvent} {i : Nat} (hi : event.writer = i) (h : History) :
    decisions (event :: h) i = h.decisions i ++ event.decision?.toList := by
  rw [decisions_cons, ← hi, BufferEvent.decisionOf?_self]

theorem decisions_cons_silent {event : BufferEvent} (hsilent : event.decision? = none) (h : History)
    (i : Nat) : decisions (event :: h) i = h.decisions i := by
  have hnone : event.decisionOf? i = none := by
    unfold BufferEvent.decisionOf?
    rw [hsilent, ite_self]
  rw [decisions_cons, hnone]
  exact List.append_nil _

/-- The events of other writers settle nothing. -/
theorem decisions_append_of_ne {since : History} {i : Nat} (hne : ∀ e ∈ since, e.writer ≠ i)
    (h : History) : decisions (since ++ h) i = h.decisions i := by
  induction since with
  | nil => rfl
  | cons event since ih =>
    rw [List.cons_append, decisions_cons,
      BufferEvent.decisionOf?_ne (hne event List.mem_cons_self),
      ih fun e he => hne e (List.mem_cons_of_mem _ he)]
    exact List.append_nil _

theorem current_cons_stored {event : BufferEvent} {stored : Cell}
    (hstored : event.stored? = some stored) (first : Cell) (h : History) :
    current first (event :: h) = stored := by
  rw [current, List.findSome?_cons, hstored]
  rfl

theorem current_cons_silent {event : BufferEvent} (hsilent : event.stored? = none) (first : Cell)
    (h : History) : current first (event :: h) = h.current first := by
  rw [current, List.findSome?_cons, hsilent]
  rfl

theorem current_append_silent {since : History} (hsilent : ∀ e ∈ since, e.stored? = none)
    (first : Cell) (h : History) : current first (since ++ h) = h.current first := by
  induction since with
  | nil => rfl
  | cons event since ih =>
    rw [List.cons_append, current_cons_silent (hsilent event List.mem_cons_self),
      ih fun e he => hsilent e (List.mem_cons_of_mem _ he)]

/-- Writer `i` loaded `seen` after the events `before`, when it was current, and did nothing in the
events `since`. -/
structure LoadedAt (first : Cell) (h : History) (i : Nat) (seen : Cell)
    (since before : History) : Prop where
  split : h = since ++ .loaded i seen :: before
  quiet : ∀ event ∈ since, event.writer ≠ i
  current_eq : before.current first = seen

/-- The last thing that writer `i` did was to load `seen`. -/
def Loaded (first : Cell) (h : History) (i : Nat) (seen : Cell) : Prop :=
  ∃ since before, LoadedAt first h i seen since before

/-- Why an event can happen after the earlier ones. A commit replaces the very cell that it was
built from; a conflict comes from a commit of another writer since the load. -/
inductive Explained (first : Cell) (earlier : History) : BufferEvent → Prop
  | loaded (i : Nat) : Explained first earlier (.loaded i (earlier.current first))
  | committed {i : Nat} {batch : List Edit} {seen stored : Cell} {changed : LineSet}
      (loaded : Loaded first earlier i seen) (current_eq : earlier.current first = seen)
      (applied : seen.snapshot.apply batch = .ok (some ⟨stored.snapshot, changed⟩))
      (fresh : seen.stamp < stored.stamp) :
      Explained first earlier (.committed i batch seen stored changed)
  | unchanged {i : Nat} {batch : List Edit} {seen : Cell} (loaded : Loaded first earlier i seen)
      (applied : seen.snapshot.apply batch = .ok none) :
      Explained first earlier (.unchanged i batch seen)
  | refused {i : Nat} {batch : List Edit} {seen : Cell} {error : EditError}
      (loaded : Loaded first earlier i seen)
      (applied : seen.snapshot.apply batch = .error error) :
      Explained first earlier (.refused i batch seen error)
  | conflict {i : Nat} {seen : Cell} {since before : History}
      (loaded : LoadedAt first earlier i seen since before)
      (other : ∃ event ∈ since, event.writer ≠ i ∧ event.commitment?.isSome) :
      Explained first earlier (.conflict i seen (earlier.current first))
  | told {i : Nat} {c : Commitment} (mem : c ∈ earlier.commitmentsOf i) :
      Explained first earlier
        (.told i c.change ⟨(earlier.current first).snapshot, c.change.changedLines⟩)

/-- Every event is explained by those before it. -/
def Lawful (first : Cell) : History → Prop
  | [] => True
  | event :: earlier => Explained first earlier event ∧ Lawful first earlier

theorem Loaded.append {first seen : Cell} {h : History} {i : Nat} (hl : Loaded first h i seen)
    {events : History} (hne : ∀ e ∈ events, e.writer ≠ i) : Loaded first (events ++ h) i seen := by
  obtain ⟨since, before, hsplit, hquiet, hcurrent⟩ := hl
  refine ⟨events ++ since, before, by rw [hsplit, List.append_assoc], fun e he => ?_, hcurrent⟩
  exact (List.mem_append.mp he).elim (hne e) (hquiet e)

namespace Lawful

variable {first : Cell} {h : History}

theorem explained {later earlier : History} {event : BufferEvent}
    (hl : Lawful first (later ++ event :: earlier)) : Explained first earlier event := by
  induction later with
  | nil => exact hl.1
  | cons next later ih => exact ih hl.2

/-- Since any earlier moment the current cell is the same, or one with a later stamp. -/
theorem current_eq_or_stamp_lt {since : History} (hl : Lawful first (since ++ h)) :
    current first (since ++ h) = h.current first ∨
      (h.current first).stamp < (current first (since ++ h)).stamp := by
  induction since with
  | nil => exact .inl rfl
  | cons event since ih =>
    obtain ⟨hexplained, hearlier⟩ := hl
    cases hexplained with
    | committed hloaded hcurrent happlied hfresh =>
      rw [← hcurrent] at hfresh
      rw [List.cons_append, current_cons_stored rfl]
      rcases ih hearlier with heq | hlt
      · exact .inr (heq ▸ hfresh)
      · exact .inr (Nat.lt_trans hlt hfresh)
    | loaded | unchanged | refused | conflict | told =>
      rw [List.cons_append, current_cons_silent rfl]
      exact ih hearlier

/-- One version for each commit. -/
theorem version_eq (hl : Lawful first h) :
    (h.current first).snapshot.version = first.snapshot.version + h.commitments.length := by
  induction h with
  | nil => rfl
  | cons event h ih =>
    obtain ⟨hexplained, hearlier⟩ := hl
    cases hexplained with
    | committed hloaded hcurrent happlied hfresh =>
      rw [current_cons_stored rfl, (Snapshot.apply_eq_some happlied).1, ← hcurrent, ih hearlier,
        commitments_cons, List.length_append, Nat.add_assoc]
      rfl
    | loaded | unchanged | refused | conflict | told =>
      rw [current_cons_silent rfl, ih hearlier, commitments_cons_silent rfl]

/-- The commits are those of the same batches one after another. -/
theorem replaceAll_eq (hl : Lawful first h) (observerCount : Nat) :
    TextBuffer.replaceAll ⟨first.snapshot, observerCount⟩ (h.commitments.map (·.batch)) =
      (⟨(h.current first).snapshot, observerCount⟩, h.commitments.map (·.change)) := by
  induction h with
  | nil => rfl
  | cons event h ih =>
    obtain ⟨hexplained, hearlier⟩ := hl
    cases hexplained with
    | committed hloaded hcurrent happlied hfresh =>
      rename_i i batch seen stored changed
      have hreplace : TextBuffer.replaceAll ⟨(current first h).snapshot, observerCount⟩ [batch] =
          (⟨stored.snapshot, observerCount⟩, [⟨stored.snapshot, changed⟩]) := by
        simp [TextBuffer.replaceAll, TextBuffer.replace, hcurrent, happlied]
      rw [current_cons_stored rfl, commitments_cons, List.map_append, List.map_append,
        TextBuffer.replaceAll_append, ih hearlier]
      exact congrArg (fun r => (r.1, (commitments h).map (·.change) ++ r.2)) hreplace
    | loaded | unchanged | refused | conflict | told =>
      rw [current_cons_silent rfl, commitments_cons_silent rfl]
      exact ih hearlier

/-- The commits of a writer are what its calls have come to, less those that change nothing. -/
theorem decision_commitmentsOf (hl : Lawful first h) (i : Nat) :
    (h.commitmentsOf i).map (·.decision) = (h.decisions i).filter Decision.changes := by
  induction h with
  | nil => rfl
  | cons event h ih =>
    obtain ⟨hexplained, hearlier⟩ := hl
    have ih := ih hearlier
    unfold commitmentsOf at ih ⊢
    rw [commitments_cons, decisions_cons, List.filter_append, List.map_append, List.filter_append,
      ih]
    congr 1
    by_cases hi : event.writer = i
    · subst hi
      rw [BufferEvent.decisionOf?_self]
      cases hexplained with
      | committed hloaded hcurrent happlied hfresh =>
        have hchanged := (Snapshot.apply_eq_some happlied).2
        simp only at hchanged
        simp [BufferEvent.commitment?, BufferEvent.decision?, Decision.changes, BufferEvent.writer,
          Commitment.decision, hchanged]
      | loaded | unchanged | refused | conflict | told =>
        simp [BufferEvent.commitment?, BufferEvent.decision?, Decision.changes, LineSet.empty,
          LineSet.isEmpty]
    · rw [BufferEvent.decisionOf?_ne hi]
      cases event with
      | committed j batch seen stored changed =>
        have hj : j ≠ i := hi
        simp [BufferEvent.commitment?, hj]
      | loaded | unchanged | refused | conflict | told => rfl

end Lawful

end History

end LineTokens
