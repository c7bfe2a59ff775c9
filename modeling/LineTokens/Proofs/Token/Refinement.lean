import LineTokens.Proofs.Token.Slots
import Mathlib.Algebra.GroupWithZero.Nat

/-! Token tables refine flat lists of slots. However a table was built, its chunks are canonical, so
each of its operations is the operation of the same name on the list, and tables with equal lists
are equal. -/

namespace LineTokens

namespace TokenTable

/-- Tables made from nothing or from a list of slots, and then grown and written to. -/
inductive Built : TokenTable → Prop
  | empty : Built TokenTable.empty
  | ofSlots (slots : List (Option Token)) : Built (TokenTable.ofSlots slots)
  | ensureLines {table : TokenTable} (before : Built table) (count : Nat) :
      Built (table.ensureLines count)
  | set {table : TokenTable} (before : Built table) (line : Nat) (token : Option Token) :
      Built (table.set line token)

/-- Rounds of growth lead from a table to one with `count` slots, as long as slots are missing and
no longer. -/
inductive GrowsTo (count : Nat) : TokenTable → TokenTable → Prop
  | enough {table : TokenTable} (has : count ≤ table.size) : GrowsTo count table table
  | round {table grown : TokenTable} (lacks : table.size < count)
      (rest : GrowsTo count (table.growOnce count) grown) : GrowsTo count table grown

variable {table table' : TokenTable}

/-! ### Growth ends -/

/-- Rounds of growth end in one table only. -/
theorem GrowsTo.unique {count : Nat} (h : GrowsTo count table table')
    {other : TokenTable} (h' : GrowsTo count table other) : table' = other := by
  induction h with
  | enough has =>
    cases h' with
    | enough => rfl
    | round lacks => omega
  | round lacks _ ih =>
    cases h' with
    | enough has => omega
    | round _ rest => exact ih rest

theorem Canonical.growsTo_growFor (h : table.Canonical) {rounds count : Nat}
    (hrounds : count - table.size ≤ rounds) : GrowsTo count table (table.growFor rounds count) := by
  induction rounds generalizing table with
  | zero => exact .enough (by omega)
  | succ rounds ih =>
    rw [TokenTable.growFor]
    split
    · rename_i hlt
      -- A round adds a slot, so the rounds left still suffice.
      obtain ⟨hcanonical, added, hpos, -, hsize, -⟩ := h.growOnce hlt
      exact .round hlt (ih hcanonical (by omega))
    · exact .enough (by omega)

/-! ### Tables from lists -/

/-- A write to the first line without a slot adds a slot. -/
theorem Canonical.slots_set_size (h : table.Canonical) (token : Option Token) :
    (table.set table.size token).slots = table.slots ++ [token] := by
  rw [(h.set _ token).2, h.slots_ensureLines, Nat.add_sub_cancel_left,
    List.set_append_right _ _ (by simp [h.size_eq])]
  simp [h.size_eq]

theorem Canonical.setFrom (h : table.Canonical) (slots : List (Option Token)) :
    (table.setFrom table.size slots).Canonical ∧
      (table.setFrom table.size slots).slots = table.slots ++ slots := by
  induction slots generalizing table with
  | nil => exact ⟨h, (List.append_nil _).symm⟩
  | cons slot rest ih =>
    have hslots := h.slots_set_size slot
    have hnext := (h.set table.size slot).1
    have hsize : (table.set table.size slot).size = table.size + 1 := by
      rw [hnext.size_eq, hslots, List.length_append, ← h.size_eq, List.length_singleton]
    obtain ⟨hcanonical, hall⟩ := ih hnext
    rw [hsize] at hcanonical hall
    rw [TokenTable.setFrom]
    refine ⟨hcanonical, ?_⟩
    rw [hall, hslots, List.append_assoc, List.singleton_append]

theorem canonical_ofSlots (slots : List (Option Token)) : (ofSlots slots).Canonical :=
  (canonical_empty.setFrom slots).1

theorem slots_ofSlots (slots : List (Option Token)) : (ofSlots slots).slots = slots :=
  (canonical_empty.setFrom slots).2

/-- No operation breaks the chunks. -/
theorem Built.canonical (h : Built table) : table.Canonical := by
  induction h with
  | empty => exact canonical_empty
  | ofSlots slots => exact canonical_ofSlots slots
  | ensureLines _ count ih => exact ih.ensureLines count
  | set _ line token ih => exact (ih.set line token).1

/-! ### Lines of a table -/

theorem Canonical.tokensIn_eq (h : table.Canonical) (start stop : Nat) :
    table.tokensIn start stop =
      ((table.slots.take (min stop table.size)).drop start).filterMap id := by
  have hlines : ((List.range' 0 table.size).take (min stop table.size)).drop start =
      List.range' start (min stop table.size - start) := by
    rw [List.take_range'_of_length_ge (Nat.min_le_right _ _), List.drop_range']
    simp
  rw [tokensIn, h.slots_eq_map, ← List.map_take, ← List.map_drop, List.filterMap_map, hlines]
  rfl

/-- However a table was built: all its chunks but the last are full and none is empty, and together
they have as many slots as the table counts. Growth ends, and pads the slots with empty ones up to
the number asked for; a write pads them up to its line and replaces this line's slot; look-ups and
listings are those of the slots; a table of a list of slots has these slots; and two tables are
equal exactly if their slots are. -/
theorem chunks_refine_slots (h : Built table) :
    ((∀ chunk ∈ table.chunks.dropLast, chunk.length = 256) ∧
      (∀ chunk ∈ table.chunks, 0 < chunk.length ∧ chunk.length ≤ 256) ∧
      (table.chunks.map List.length).sum = table.size ∧ table.slots.length = table.size) ∧
    (∀ count, (∀ grown, GrowsTo count table grown ↔ grown = table.ensureLines count) ∧
      (table.ensureLines count).slots =
        table.slots ++ List.replicate (count - table.slots.length) none ∧
      (table.ensureLines count).slots.length = max table.slots.length count) ∧
    (∀ line token, (table.set line token).slots =
      (table.slots ++ List.replicate (line + 1 - table.slots.length) none).set line token) ∧
    (∀ line, table.get? line = (table.slots[line]?).join) ∧
    table.tokens = table.slots.filterMap id ∧
    (∀ start stop, table.tokensIn start stop =
      ((table.slots.take (min stop table.slots.length)).drop start).filterMap id ∧
        (stop ≤ start → table.tokensIn start stop = [])) ∧
    (∀ slots, (ofSlots slots).slots = slots) ∧
    ∀ table', Built table' → (table = table' ↔ table.slots = table'.slots) := by
  have hc : table.Canonical := h.canonical
  have hsize := hc.size_eq
  refine ⟨⟨hc.full, hc.nonempty, ?_, hsize.symm⟩, fun count => ⟨fun grown => ?_, ?_, ?_⟩,
    fun line token => ?_, hc.get?_eq, rfl, fun start stop => ⟨?_, fun hle => ?_⟩, slots_ofSlots,
    fun table' h' => ?_⟩
  · rw [hsize, slots, List.length_flatten]
  · have hgrows := hc.growsTo_growFor (Nat.le_refl (count - table.size))
    exact ⟨fun hgrown => hgrown.unique hgrows, fun heq => heq ▸ hgrows⟩
  · rw [← hsize]
    exact hc.slots_ensureLines count
  · rw [← (hc.ensureLines count).size_eq, ← hsize]
    exact hc.size_ensureLines count
  · rw [(hc.set line token).2, hc.slots_ensureLines, hsize]
  · rw [← hsize]
    exact hc.tokensIn_eq start stop
  · rw [hc.tokensIn_eq, List.drop_eq_nil_of_le (by simp; omega), List.filterMap_nil]
  · exact ⟨fun heq => congrArg slots heq, hc.ext h'.canonical⟩

/-- A table that has grown over a chunk's end in two steps, and the table collected from its
slots. -/
theorem chunks_refine_slots_grown_and_collected :
    let token : Token := ⟨257, 0, 1, .holds⟩
    let grown := (TokenTable.empty.ensureLines 255).set 257 (some token)
    Built grown ∧ Built (ofSlots grown.slots) ∧ grown.chunks.map List.length = [256, 2] ∧
      grown.slots = List.replicate 257 none ++ [some token] ∧
      grown.tokensIn 256 300 = [token] ∧ grown = ofSlots grown.slots := by
  intro token grown
  have hgrown : Built grown := (Built.empty.ensureLines 255).set 257 (some token)
  have hcollected : Built (ofSlots grown.slots) := .ofSlots _
  have hslots : grown.slots = List.replicate 257 none ++ [some token] := by decide +kernel
  obtain ⟨-, -, -, -, -, htokens, hof, heq⟩ := chunks_refine_slots hgrown
  refine ⟨hgrown, hcollected, by decide +kernel, hslots, ?_, ?_⟩
  · rw [(htokens 256 300).1, hslots]
    decide +kernel
  · exact (heq _ hcollected).mpr (hof _).symm

end TokenTable

end LineTokens
