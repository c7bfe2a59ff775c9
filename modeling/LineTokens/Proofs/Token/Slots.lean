import LineTokens.Token.Table
import Mathlib.Data.List.Basic

/-! The chunks of a token table as the one list of slots that they stand for. Every operation keeps
the chunks canonical and does to the slots what its name says, and canonical tables with equal slots
are equal. -/

namespace LineTokens

namespace TokenTable

theorem chunkLines_pos : 0 < chunkLines := by decide

/-- Chunks of which every one but the last is full, and none is empty. -/
def ChunksFull (chunks : List (List (Option Token))) : Prop :=
  (∀ chunk ∈ chunks.dropLast, chunk.length = chunkLines) ∧
    ∀ chunk ∈ chunks, 0 < chunk.length ∧ chunk.length ≤ chunkLines

namespace ChunksFull

variable {chunk : List (Option Token)} {chunks : List (List (Option Token))}

theorem nil : ChunksFull [] := ⟨by simp, by simp⟩

theorem head (h : ChunksFull (chunk :: chunks)) :
    0 < chunk.length ∧ chunk.length ≤ chunkLines ∧ (chunks ≠ [] → chunk.length = chunkLines) := by
  refine ⟨(h.2 chunk (by simp)).1, (h.2 chunk (by simp)).2, fun hne => h.1 chunk ?_⟩
  rw [List.dropLast_cons_of_ne_nil hne]
  exact List.mem_cons_self

theorem tail (h : ChunksFull (chunk :: chunks)) : ChunksFull chunks := by
  refine ⟨fun c hc => h.1 c ?_, fun c hc => h.2 c (List.mem_cons_of_mem _ hc)⟩
  cases chunks with
  | nil => simp at hc
  | cons next chunks =>
    rw [List.dropLast_cons_cons]
    exact List.mem_cons_of_mem _ hc

theorem cons (hpos : 0 < chunk.length) (hle : chunk.length ≤ chunkLines)
    (hfull : chunks ≠ [] → chunk.length = chunkLines) (h : ChunksFull chunks) :
    ChunksFull (chunk :: chunks) := by
  refine ⟨fun c hc => ?_, fun c hc => ?_⟩
  · cases chunks with
    | nil => simp at hc
    | cons next chunks =>
      rw [List.dropLast_cons_cons] at hc
      rcases List.mem_cons.mp hc with rfl | hc
      · exact hfull (by simp)
      · exact h.1 c hc
  · rcases List.mem_cons.mp hc with rfl | hc
    · exact ⟨hpos, hle⟩
    · exact h.2 c hc

/-- The slot of a line is found in the chunk and at the place that division gives. -/
theorem getElem?_flatten (h : ChunksFull chunks) (line : Nat) :
    chunks.flatten[line]? = chunks[line / chunkLines]?.bind (·[line % chunkLines]?) := by
  induction chunks generalizing line with
  | nil => simp
  | cons chunk chunks ih =>
    obtain ⟨hpos, hle, hfull⟩ := h.head
    rw [List.flatten_cons]
    by_cases hline : line < chunkLines
    · rw [Nat.div_eq_of_lt hline, Nat.mod_eq_of_lt hline, List.getElem?_cons_zero, Option.bind_some]
      by_cases hchunk : line < chunk.length
      · exact List.getElem?_append_left hchunk
      · obtain rfl : chunks = [] := by
          by_contra hne
          exact hchunk (hfull hne ▸ hline)
        simp
    · have hge : chunkLines ≤ line := Nat.le_of_not_lt hline
      rw [Nat.div_eq_sub_div chunkLines_pos hge, Nat.mod_eq_sub_mod hge, List.getElem?_cons_succ,
        ← ih h.tail]
      cases chunks with
      | nil => simp; omega
      | cons next chunks =>
        have hlength := hfull (by simp)
        rw [List.getElem?_append_right (by omega), hlength]

theorem flatten_modify (h : ChunksFull chunks) (line : Nat) (token : Option Token) :
    (chunks.modify (line / chunkLines) (·.set (line % chunkLines) token)).flatten =
      chunks.flatten.set line token := by
  induction chunks generalizing line with
  | nil => simp
  | cons chunk chunks ih =>
    obtain ⟨hpos, hle, hfull⟩ := h.head
    by_cases hline : line < chunkLines
    · rw [Nat.div_eq_of_lt hline, Nat.mod_eq_of_lt hline, List.modify_zero_cons]
      by_cases hchunk : line < chunk.length
      · rw [List.flatten_cons, List.flatten_cons, List.set_append_left _ _ hchunk]
      · obtain rfl : chunks = [] := by
          by_contra hne
          exact hchunk (hfull hne ▸ hline)
        simp
    · have hge : chunkLines ≤ line := Nat.le_of_not_lt hline
      rw [Nat.div_eq_sub_div chunkLines_pos hge, Nat.mod_eq_sub_mod hge, List.modify_succ_cons,
        List.flatten_cons, List.flatten_cons, ih h.tail]
      cases chunks with
      | nil =>
        rw [List.flatten_nil, List.set_nil, List.append_nil, List.set_eq_of_length_le (by omega)]
      | cons next chunks =>
        have hlength := hfull (by simp)
        rw [List.set_append_right _ _ (by omega), hlength]

theorem modify (h : ChunksFull chunks) (index : Nat) (f : List (Option Token) → List (Option Token))
    (hf : ∀ chunk, (f chunk).length = chunk.length) : ChunksFull (chunks.modify index f) := by
  induction chunks generalizing index with
  | nil => simpa using nil
  | cons chunk chunks ih =>
    obtain ⟨hpos, hle, hfull⟩ := h.head
    cases index with
    | zero =>
      rw [List.modify_zero_cons]
      exact cons (by rw [hf]; exact hpos) (by rw [hf]; exact hle)
        (fun hne => by rw [hf]; exact hfull hne) h.tail
    | succ index =>
      rw [List.modify_succ_cons]
      refine cons hpos hle (fun hne => hfull ?_) (ih h.tail index)
      rintro rfl
      exact hne (by simp)

/-- The slots determine the chunks. -/
theorem eq_of_flatten {chunks' : List (List (Option Token))} (h : ChunksFull chunks)
    (h' : ChunksFull chunks') (heq : chunks.flatten = chunks'.flatten) : chunks = chunks' := by
  induction chunks generalizing chunks' with
  | nil =>
    cases chunks' with
    | nil => rfl
    | cons chunk' chunks' =>
      have hsum := congrArg List.length heq
      rw [List.flatten_nil, List.flatten_cons, List.length_append, List.length_nil] at hsum
      have := h'.head.1
      omega
  | cons chunk chunks ih =>
    cases chunks' with
    | nil =>
      have hsum := congrArg List.length heq
      rw [List.flatten_nil, List.flatten_cons, List.length_append, List.length_nil] at hsum
      have := h.head.1
      omega
    | cons chunk' chunks' =>
      obtain ⟨hpos, hle, hfull⟩ := h.head
      obtain ⟨hpos', hle', hfull'⟩ := h'.head
      rw [List.flatten_cons, List.flatten_cons] at heq
      have hlength : chunk.length = chunk'.length := by
        have hsum := congrArg List.length heq
        simp only [List.length_append] at hsum
        by_cases hc : chunks = [] <;> by_cases hc' : chunks' = []
        · subst hc hc'
          simpa using hsum
        · subst hc
          have := hfull' hc'
          simp at hsum
          omega
        · subst hc'
          have := hfull hc
          simp at hsum
          omega
        · rw [hfull hc, hfull' hc']
      obtain ⟨rfl, hflatten⟩ := List.append_inj heq hlength
      rw [ih h.tail h'.tail hflatten]

end ChunksFull

theorem Canonical.chunksFull {table : TokenTable} (h : table.Canonical) :
    ChunksFull table.chunks :=
  ⟨h.full, h.nonempty⟩

/-- Canonical tables with the same slots are equal. -/
theorem Canonical.ext {table table' : TokenTable} (h : table.Canonical) (h' : table'.Canonical)
    (heq : table.slots = table'.slots) : table = table' := by
  have hchunks := h.chunksFull.eq_of_flatten h'.chunksFull heq
  have hsize : table.size = table'.size := by rw [h.size_eq, h'.size_eq, heq]
  cases table
  cases table'
  cases hchunks
  cases hsize
  rfl

theorem Canonical.get?_eq {table : TokenTable} (h : table.Canonical) (line : Nat) :
    table.get? line = (table.slots[line]?).join := by
  rw [get?, slots, h.chunksFull.getElem?_flatten]
  cases table.chunks[line / chunkLines]? <;> rfl

theorem Canonical.get?_of_size_le {table : TokenTable} (h : table.Canonical) {line : Nat}
    (hline : table.size ≤ line) : table.get? line = none := by
  rw [h.get?_eq, List.getElem?_eq_none (h.size_eq ▸ hline)]
  rfl

theorem Canonical.getElem?_slots {table : TokenTable} (h : table.Canonical) {line : Nat}
    (hline : line < table.size) : table.slots[line]? = some (table.get? line) := by
  rw [h.size_eq] at hline
  rw [h.get?_eq, List.getElem?_eq_getElem hline]
  rfl

theorem Canonical.slots_eq_map {table : TokenTable} (h : table.Canonical) :
    table.slots = (List.range' 0 table.size).map table.get? := by
  refine List.ext_getElem? fun line => ?_
  by_cases hline : line < table.size
  · rw [h.getElem?_slots hline, List.getElem?_map, List.getElem?_range' hline]
    simp
  · rw [List.getElem?_eq_none (by rw [← h.size_eq]; omega), List.getElem?_eq_none (by simp; omega)]

/-! ### Growth -/

theorem length_flatten_of_full {chunks : List (List (Option Token))}
    (h : ∀ chunk ∈ chunks, chunk.length = chunkLines) :
    chunks.flatten.length = chunkLines * chunks.length := by
  induction chunks with
  | nil => rfl
  | cons chunk chunks ih =>
    rw [List.flatten_cons, List.length_append, h chunk (by simp),
      ih fun c hc => h c (by simp [hc]), List.length_cons, Nat.mul_succ, Nat.add_comm]

/-- Before a round of growth fills it, the last chunk has room. -/
theorem Canonical.openChunk {table : TokenTable} (h : table.Canonical) :
    ∃ front last, (if table.size % chunkLines = 0 then table.chunks ++ [[]] else table.chunks) =
        front ++ [last] ∧ (∀ chunk ∈ front, chunk.length = chunkLines) ∧
      last.length < chunkLines ∧ (front ++ [last]).flatten = table.slots := by
  rcases List.eq_nil_or_concat table.chunks with hnil | ⟨front, last, hconcat⟩
  · have hsize : table.size = 0 := by rw [h.size_eq, slots, hnil]; rfl
    exact ⟨[], [], by simp [hsize, hnil], by simp, chunkLines_pos, by simp [slots, hnil]⟩
  · rw [List.concat_eq_append] at hconcat
    have hfront : ∀ chunk ∈ front, chunk.length = chunkLines := by
      have := h.full
      rwa [hconcat, List.dropLast_concat] at this
    obtain ⟨hpos, hle⟩ := h.nonempty last (by simp [hconcat])
    have hsize : table.size = chunkLines * front.length + last.length := by
      rw [h.size_eq, slots, hconcat, List.flatten_append, List.length_append,
        length_flatten_of_full hfront]
      simp
    by_cases hfull : last.length = chunkLines
    · refine ⟨table.chunks, [], ?_, ?_, chunkLines_pos, by simp [slots]⟩
      · rw [if_pos]
        rw [hsize, hfull, ← Nat.mul_succ, Nat.mul_mod_right]
      · intro chunk hchunk
        rw [hconcat] at hchunk
        rcases List.mem_append.mp hchunk with hc | hc
        · exact hfront chunk hc
        · rw [List.mem_singleton.mp hc, hfull]
    · have hlt : last.length < chunkLines := Nat.lt_of_le_of_ne hle hfull
      refine ⟨front, last, ?_, hfront, hlt, by rw [← hconcat, slots]⟩
      rw [if_neg, hconcat]
      rw [hsize, Nat.mul_add_mod, Nat.mod_eq_of_lt hlt]
      omega

/-- A round of growth adds empty slots, at least one and no more than are wanted. -/
theorem Canonical.growOnce {table : TokenTable} (h : table.Canonical) {count : Nat}
    (hlt : table.size < count) :
    (table.growOnce count).Canonical ∧
      ∃ added, 0 < added ∧ table.size + added ≤ count ∧
        (table.growOnce count).size = table.size + added ∧
        (table.growOnce count).slots = table.slots ++ List.replicate added none := by
  obtain ⟨front, last, hchunks, hfront, hroom, hflatten⟩ := h.openChunk
  have hadded : 0 < min (chunkLines - last.length) (count - table.size) := by omega
  have hgrown : table.growOnce count =
      ⟨front ++ [last ++ List.replicate (min (chunkLines - last.length) (count - table.size)) none],
        table.size + min (chunkLines - last.length) (count - table.size)⟩ := by
    simp [TokenTable.growOnce, hchunks]
  have hslots : (table.growOnce count).slots = table.slots ++
      List.replicate (min (chunkLines - last.length) (count - table.size)) none := by
    rw [hgrown, ← hflatten]
    simp [slots]
  refine ⟨⟨?_, ?_, ?_⟩, _, hadded, by omega, by rw [hgrown], hslots⟩
  · rw [hgrown, List.dropLast_concat]
    exact hfront
  · intro chunk hchunk
    rw [hgrown] at hchunk
    rcases List.mem_append.mp hchunk with hc | hc
    · rw [hfront chunk hc]
      exact ⟨chunkLines_pos, Nat.le_refl _⟩
    · rw [List.mem_singleton.mp hc]
      simp only [List.length_append, List.length_replicate]
      omega
  · rw [hslots, List.length_append, List.length_replicate, ← h.size_eq, hgrown]

theorem Canonical.growFor {table : TokenTable} (h : table.Canonical) {rounds count : Nat}
    (hrounds : count - table.size ≤ rounds) :
    (TokenTable.growFor rounds table count).Canonical ∧
      (TokenTable.growFor rounds table count).slots =
        table.slots ++ List.replicate (count - table.size) none := by
  induction rounds generalizing table with
  | zero =>
    rw [TokenTable.growFor, show count - table.size = 0 by omega]
    exact ⟨h, by simp⟩
  | succ rounds ih =>
    rw [TokenTable.growFor]
    split
    · rename_i hlt
      obtain ⟨hcanonical, added, hpos, hle, hsize, hslots⟩ := h.growOnce hlt
      obtain ⟨hcanonical', hslots'⟩ := ih hcanonical (by omega)
      refine ⟨hcanonical', ?_⟩
      rw [hslots', hslots, List.append_assoc, List.replicate_append_replicate, hsize]
      congr 2
      omega
    · rw [show count - table.size = 0 by omega]
      exact ⟨h, by simp⟩

theorem Canonical.ensureLines {table : TokenTable} (h : table.Canonical) (count : Nat) :
    (table.ensureLines count).Canonical :=
  (h.growFor (Nat.le_refl _)).1

/-- Growth pads the slots with empty ones. -/
theorem Canonical.slots_ensureLines {table : TokenTable} (h : table.Canonical) (count : Nat) :
    (table.ensureLines count).slots =
      table.slots ++ List.replicate (count - table.size) none :=
  (h.growFor (Nat.le_refl _)).2

theorem Canonical.size_ensureLines {table : TokenTable} (h : table.Canonical) (count : Nat) :
    (table.ensureLines count).size = max table.size count := by
  rw [(h.ensureLines count).size_eq, h.slots_ensureLines, List.length_append, ← h.size_eq,
    List.length_replicate]
  omega

/-! ### Writes -/

theorem Canonical.set {table : TokenTable} (h : table.Canonical) (line : Nat)
    (token : Option Token) : (table.set line token).Canonical ∧
      (table.set line token).slots = (table.ensureLines (line + 1)).slots.set line token := by
  have hgrown := h.ensureLines (line + 1)
  have hfull := hgrown.chunksFull.modify (line / chunkLines) (·.set (line % chunkLines) token)
    fun chunk => List.length_set
  have hslots := hgrown.chunksFull.flatten_modify line token
  refine ⟨⟨hfull.1, hfull.2, ?_⟩, hslots⟩
  show (table.ensureLines (line + 1)).size = _
  rw [slots, TokenTable.set, hslots, List.length_set]
  exact hgrown.size_eq

/-- A write to a line that has a slot replaces this slot only. -/
theorem Canonical.slots_set {table : TokenTable} (h : table.Canonical) {line : Nat}
    (hline : line < table.size) (token : Option Token) :
    (table.set line token).slots = table.slots.set line token := by
  rw [(h.set line token).2, ensureLines_of_le hline]

theorem Canonical.size_set {table : TokenTable} (h : table.Canonical) {line : Nat}
    (hline : line < table.size) (token : Option Token) :
    (table.set line token).size = table.size := by
  rw [(h.set line token).1.size_eq, h.slots_set hline, List.length_set, ← h.size_eq]

theorem Canonical.get?_set {table : TokenTable} (h : table.Canonical) {line : Nat}
    (hline : line < table.size) (token : Option Token) (other : Nat) :
    (table.set line token).get? other = if other = line then token else table.get? other := by
  rw [(h.set line token).1.get?_eq, h.slots_set hline, h.get?_eq, List.getElem?_set]
  rw [h.size_eq] at hline
  by_cases heq : line = other
  · subst heq
    simp [hline]
  · rw [if_neg heq, if_neg (Ne.symm heq)]

theorem Canonical.get?_ensureLines {table : TokenTable} (h : table.Canonical) (count line : Nat) :
    (table.ensureLines count).get? line = table.get? line := by
  rw [(h.ensureLines count).get?_eq, h.slots_ensureLines, h.get?_eq]
  by_cases hline : line < table.slots.length
  · rw [List.getElem?_append_left hline]
  · rw [List.getElem?_append_right (by omega), List.getElem?_replicate,
      List.getElem?_eq_none (l := table.slots) (by omega)]
    split <;> rfl

end TokenTable

end LineTokens
