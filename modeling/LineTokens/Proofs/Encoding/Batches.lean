import LineTokens.Encoding.Range
import LineTokens.Proofs.Encoding.RoundTrip

/-! The data of some lines of a table. A range request and the batches of a partial answer carry the
tokens of the whole answer that are on the lines asked for: the range in one piece, the batches in
windows of a fixed number of lines, of which those without a token are left out. -/

namespace LineTokens

/-! ### The tokens of a table by line -/

namespace TokenTable

/-- Every token stands in the slot of its own line. -/
def OwnLines (table : TokenTable) : Prop :=
  ∀ line < table.size, ∀ token ∈ table.get? line, token.line = line

instance (table : TokenTable) : Decidable table.OwnLines :=
  inferInstanceAs (Decidable (∀ line < table.size, ∀ token ∈ table.get? line, token.line = line))

variable {table : TokenTable}

theorem tokensIn_of_le {start stop : Nat} (h : stop ≤ start) : table.tokensIn start stop = [] := by
  rw [tokensIn, Nat.sub_eq_zero_of_le (by omega)]
  rfl

theorem tokensIn_append {start middle stop : Nat} (hstart : start ≤ middle)
    (hstop : middle ≤ stop) :
    table.tokensIn start middle ++ table.tokensIn middle stop = table.tokensIn start stop := by
  by_cases hmiddle : middle ≤ table.size
  · have hcount : min stop table.size - start =
        (min middle table.size - start) + (min stop table.size - middle) := by omega
    have hnext : start + (min middle table.size - start) = middle := by omega
    rw [tokensIn, tokensIn, tokensIn, hcount, ← List.range'_append_1, List.filterMap_append, hnext]
  · rw [tokensIn, tokensIn, tokensIn, show min stop table.size - middle = 0 by omega,
      show min middle table.size = min stop table.size by omega]
    simp

theorem tokensIn_of_size_le (table : TokenTable) (start : Nat) {stop : Nat}
    (h : table.size ≤ stop) : table.tokensIn start stop = table.tokensIn start table.size := by
  rw [tokensIn, tokensIn, Nat.min_eq_right h, Nat.min_self]

theorem Canonical.tokens_eq (h : table.Canonical) : table.tokens = table.tokensIn 0 table.size := by
  rw [tokens, h.slots_eq_map, List.filterMap_map, tokensIn, Nat.min_self, Nat.sub_zero]
  rfl

theorem OwnLines.mem_tokensIn (h : table.OwnLines) {start stop : Nat} {token : Token}
    (htoken : token ∈ table.tokensIn start stop) :
    start ≤ token.line ∧ token.line < stop ∧ token.line < table.size := by
  obtain ⟨line, hline, hget⟩ := List.mem_filterMap.mp htoken
  rw [List.mem_range'_1] at hline
  have := h line (by omega) token hget
  omega

theorem OwnLines.tokensIn_ascending (h : table.OwnLines) (start stop : Nat) :
    (table.tokensIn start stop).Pairwise fun token later => token.line < later.line := by
  rw [tokensIn, List.pairwise_filterMap]
  refine List.Pairwise.imp_of_mem ?_ List.pairwise_lt_range'
  intro line other hline hother hlt token htoken later hlater
  rw [List.mem_range'_1] at hline hother
  rw [h line (by omega) token htoken, h other (by omega) later hlater]
  exact hlt

theorem OwnLines.filter_outside (h : table.OwnLines) {first last start stop : Nat}
    (hout : last ≤ start ∨ stop ≤ first) :
    ((table.tokensIn first last).filter fun token => start ≤ token.line ∧ token.line < stop) =
      [] := by
  rw [List.filter_eq_nil_iff]
  intro token htoken hinside
  have hline := h.mem_tokensIn htoken
  rw [decide_eq_true_eq] at hinside
  omega

/-- The tokens of lines are those of the table that name one of them. -/
theorem Canonical.tokensIn_eq_filter (h : table.Canonical) (hown : table.OwnLines)
    {start stop : Nat} (hle : start ≤ stop) :
    table.tokensIn start stop =
      table.tokens.filter fun token => start ≤ token.line ∧ token.line < stop := by
  have hsplit : table.tokens = table.tokensIn 0 start ++
      (table.tokensIn start stop ++ table.tokensIn stop (max stop table.size)) := by
    rw [tokensIn_append hle (Nat.le_max_left _ _), tokensIn_append (Nat.zero_le _) (by omega),
      tokensIn_of_size_le table 0 (Nat.le_max_right _ _), h.tokens_eq]
  have hinside : (table.tokensIn start stop).filter
      (fun token => start ≤ token.line ∧ token.line < stop) = table.tokensIn start stop := by
    rw [List.filter_eq_self]
    intro token htoken
    obtain ⟨hstart, hstop, -⟩ := hown.mem_tokensIn htoken
    exact decide_eq_true ⟨hstart, hstop⟩
  rw [hsplit, List.filter_append, List.filter_append, hown.filter_outside (.inl (Nat.le_refl _)),
    hinside, hown.filter_outside (.inr (Nat.le_refl _)), List.nil_append, List.append_nil]

end TokenTable

namespace Encoding

variable {table : TokenTable}

/-! ### Data of lines read back -/

theorem deltasFit_of_fits {tokens : List Token} (h : ∀ token ∈ tokens, token.Fits)
    (line start : Nat) : DeltasFit line start tokens := by
  induction tokens generalizing line start with
  | nil => trivial
  | cons token rest ih =>
    obtain ⟨hline, hstart, hlength⟩ := h token List.mem_cons_self
    refine ⟨⟨by omega, ?_, hlength⟩, ih (fun t ht => h t (List.mem_cons_of_mem _ ht)) _ _⟩
    split <;> omega

/-- Tokens on ascending lines are read back from their data. -/
theorem decode?_of_ascending {tokens : List Token}
    (hlines : tokens.Pairwise fun token later => token.line < later.line)
    (hfits : ∀ token ∈ tokens, token.Fits) : decode? (encodeTokens tokens) = some tokens := by
  refine decodeFrom?_encodeFrom (ascends_of_pairwise (fun token _ => ?_) ?_)
    (deltasFit_of_fits hfits 0 0)
  · omega
  · exact hlines.imp .inl

theorem decode?_tokensIn (hown : table.OwnLines)
    (hfits : ∀ token ∈ table.tokens, token.Fits) (start stop : Nat) :
    decode? (encodeTokens (table.tokensIn start stop)) = some (table.tokensIn start stop) := by
  refine decode?_of_ascending (hown.tokensIn_ascending start stop) fun token htoken => ?_
  obtain ⟨line, -, hget⟩ := List.mem_filterMap.mp htoken
  exact hfits token (TokenTable.mem_tokens_of_get? hget)

/-! ### Windows of lines -/

/-- The tokens of the lines from `start` up to `stop` that are in the window of number `number`, of
windows of `step` lines. -/
def window (table : TokenTable) (start stop step number : Nat) : List Token :=
  table.tokensIn (start + number * step) (min (start + (number + 1) * step) stop)

theorem flatMap_window (table : TokenTable) {start stop : Nat} (hle : start ≤ stop)
    (step count : Nat) :
    (List.range count).flatMap (window table start stop step) =
      table.tokensIn start (min (start + count * step) stop) := by
  induction count with
  | zero =>
    rw [Nat.zero_mul, TokenTable.tokensIn_of_le (by omega)]
    rfl
  | succ count ih =>
    have hnext : (count + 1) * step = count * step + step := Nat.succ_mul count step
    rw [List.range_succ, List.flatMap_append, ih, List.flatMap_singleton, window]
    by_cases hstop : start + count * step ≤ stop
    · rw [Nat.min_eq_left hstop, TokenTable.tokensIn_append (by omega) (by omega)]
    · have hlast : min (start + (count + 1) * step) stop ≤ start + count * step := by omega
      rw [TokenTable.tokensIn_of_le hlast, List.append_nil]
      congr 1
      omega

/-- The first line of each window is one of the lines asked for. -/
theorem mul_lt_of_lt_div {count step number : Nat} (hstep : 0 < step)
    (h : number < (count + step - 1) / step) : number * step < count := by
  have hle : (number + 1) * step ≤ count + step - 1 := (Nat.le_div_iff_mul_le hstep).mp h
  rw [Nat.succ_mul] at hle
  omega

/-- The numbers of the windows with a token. -/
def occupied (table : TokenTable) (start stop step : Nat) : List Nat :=
  (List.range ((stop - start + step - 1) / step)).filter fun number =>
    !(window table start stop step number).isEmpty

/-- The windows cover the lines, each line once. -/
theorem flatMap_occupied (table : TokenTable) {start stop step : Nat} (hle : start ≤ stop)
    (hstep : 0 < step) :
    (occupied table start stop step).flatMap (window table start stop step) =
      table.tokensIn start stop := by
  have hcover : stop - start ≤ (stop - start + step - 1) / step * step := by
    have hmod := Nat.div_add_mod (stop - start + step - 1) step
    have hlt := Nat.mod_lt (stop - start + step - 1) hstep
    rw [Nat.mul_comm] at hmod
    omega
  have hall := flatMap_window table hle step ((stop - start + step - 1) / step)
  rw [Nat.min_eq_right (by omega)] at hall
  rw [← hall, occupied]
  induction List.range ((stop - start + step - 1) / step) with
  | nil => rfl
  | cons number rest ih =>
    rw [List.filter_cons, List.flatMap_cons]
    split
    · rw [List.flatMap_cons, ih]
    · rename_i hempty
      have hnil : window table start stop step number = [] := by simpa using hempty
      rw [ih, hnil, List.nil_append]

theorem isEmpty_encodeTokens (tokens : List Token) :
    (encodeTokens tokens).isEmpty = tokens.isEmpty := by
  cases tokens <;> rfl

/-- The first line of a batch is one of the lines asked for. -/
theorem bounds_of_mem_batchStarts {start stop step first : Nat} (hstep : 0 < step)
    (h : first ∈ batchStarts start stop step) : start ≤ first ∧ first < stop := by
  obtain ⟨number, hnumber, rfl⟩ := List.mem_map.mp h
  have := mul_lt_of_lt_div hstep (List.mem_range.mp hnumber)
  omega

/-! ### Sums that fit a word -/

/-- No sum of a batch's first line and the number of lines in a batch leaves a word. -/
def SumsFit (start stop step : Nat) : Prop :=
  ∀ first ∈ batchStarts start stop step, first + step < UInt64.size

theorem wordAdd?_of_lt {m n : Nat} (h : m + n < UInt64.size) : wordAdd? m n = some (m + n) :=
  if_pos h

theorem wordAdd?_of_le {m n : Nat} (h : UInt64.size ≤ m + n) : wordAdd? m n = none :=
  if_neg (Nat.not_lt.mpr h)

theorem mapM_eq_some_map {α β : Type} {f : α → Option β} {g : α → β} {xs : List α}
    (h : ∀ x ∈ xs, f x = some (g x)) : xs.mapM f = some (xs.map g) := by
  induction xs with
  | nil => rfl
  | cons x xs ih =>
    rw [List.mapM_cons, h x List.mem_cons_self, ih fun y hy => h y (List.mem_cons_of_mem _ hy)]
    rfl

theorem mapM_eq_none {α β : Type} {f : α → Option β} {xs : List α} {x : α} (hx : x ∈ xs)
    (h : f x = none) : xs.mapM f = none := by
  induction xs with
  | nil => cases hx
  | cons y xs ih =>
    rw [List.mapM_cons]
    rcases List.mem_cons.mp hx with rfl | hx
    · rw [h]
      rfl
    · rw [ih hx]
      cases f y <;> rfl

/-- If all sums fit, the batches are the data of the windows with a token. -/
theorem encodeBatches?_eq_some {start stop perBatch : Nat} (hstop : stop ≤ table.size)
    (hsums : SumsFit start stop (max perBatch 1)) :
    encodeBatches? table start stop perBatch =
      some ((occupied table start stop (max perBatch 1)).map fun number =>
        encodeTokens (window table start stop (max perBatch 1) number)) := by
  rw [encodeBatches?, Nat.min_eq_left hstop]
  generalize max perBatch 1 = step at hsums
  have hbatches : (batchStarts start stop step).mapM (encodeBatch? table step stop) =
      some ((batchStarts start stop step).map fun first =>
        encodeTokens (table.tokensIn first (min (first + step) stop))) :=
    mapM_eq_some_map fun first hfirst => by
      rw [encodeBatch?, batchStop?, wordAdd?_of_lt (hsums first hfirst)]
      rfl
  have hwindows : (batchStarts start stop step).map (fun first =>
        encodeTokens (table.tokensIn first (min (first + step) stop))) =
      (List.range ((stop - start + step - 1) / step)).map fun number =>
        encodeTokens (window table start stop step number) := by
    rw [batchStarts, List.map_map]
    refine List.map_congr_left fun number _ => ?_
    rw [Function.comp_apply, window, Nat.succ_mul, Nat.add_assoc]
  rw [hbatches, hwindows, Option.map_some, List.filter_map, occupied]
  congr 2
  refine List.filter_congr fun number _ => ?_
  rw [Function.comp_apply, isEmpty_encodeTokens]

/-- One sum that overflows leaves no batches. -/
theorem encodeBatches?_eq_none {start stop perBatch : Nat} (hstop : stop ≤ table.size)
    (hover : ¬SumsFit start stop (max perBatch 1)) :
    encodeBatches? table start stop perBatch = none := by
  obtain ⟨first, hfirst⟩ := not_forall.mp hover
  obtain ⟨hmem, hlarge⟩ := Classical.not_imp.mp hfirst
  have hnone : encodeBatch? table (max perBatch 1) stop first = none := by
    rw [encodeBatch?, batchStop?, wordAdd?_of_le (Nat.not_lt.mp hlarge)]
    rfl
  rw [encodeBatches?, Nat.min_eq_left hstop, mapM_eq_none hmem hnone]
  rfl

/-! ### Batches -/

/-- The batches are data of parts of the tokens, which they have all of, in order and none of them
empty. Every part lies in one window of `step` lines from `first` on, in a later one than the part
before it. -/
def Batched (first step : Nat) (tokens : List Token) (batches : List (List UInt32)) : Prop :=
  ∃ parts : List (Nat × List Token),
    batches.map decode? = parts.map (some ·.2) ∧ parts.flatMap (·.2) = tokens ∧
    (∀ batch ∈ batches, batch ≠ []) ∧ (parts.map (·.1)).Pairwise (· < ·) ∧
    ∀ part ∈ parts, ∀ token ∈ part.2,
      first + part.1 * step ≤ token.line ∧ token.line < first + (part.1 + 1) * step

theorem batched_encodeBatches (hown : table.OwnLines)
    (hfits : ∀ token ∈ table.tokens, token.Fits) {start stop perBatch : Nat} (hle : start ≤ stop)
    (hstop : stop ≤ table.size) (hword : max perBatch 1 + table.size < UInt64.size) :
    ∃ batches, encodeBatches? table start stop perBatch = some batches ∧
      Batched start (max perBatch 1) (table.tokensIn start stop) batches := by
  have hstep : 0 < max perBatch 1 := by omega
  have hsums : SumsFit start stop (max perBatch 1) := fun first hfirst => by
    have := bounds_of_mem_batchStarts hstep hfirst
    omega
  refine ⟨_, encodeBatches?_eq_some hstop hsums, ?_⟩
  generalize max perBatch 1 = step at hstep
  refine ⟨(occupied table start stop step).map fun number =>
    (number, window table start stop step number), ?_, ?_, ?_, ?_, ?_⟩
  · rw [List.map_map, List.map_map]
    exact List.map_congr_left fun number _ => decode?_tokensIn hown hfits _ _
  · rw [List.flatMap_map]
    exact flatMap_occupied table hle hstep
  · intro batch hbatch hnil
    obtain ⟨number, hnumber, rfl⟩ := List.mem_map.mp hbatch
    have hoccupied := (List.mem_filter.mp hnumber).2
    rw [← isEmpty_encodeTokens, hnil] at hoccupied
    cases hoccupied
  · rw [List.map_map]
    exact (List.map_id'' (fun _ => rfl) _).symm ▸ List.pairwise_lt_range.filter _
  · intro part hpart token htoken
    obtain ⟨number, -, rfl⟩ := List.mem_map.mp hpart
    obtain ⟨hfirst, hlast, -⟩ := hown.mem_tokensIn htoken
    exact ⟨hfirst, (Nat.lt_min.mp hlast).1⟩

/-- The lines of a range request are those that it asks for, as far as the table has them. -/
theorem tokensIn_rangeLines (hcanonical : table.Canonical) (hown : table.OwnLines)
    (start stop : Nat) :
    table.tokensIn (rangeLines start stop table.size).1 (rangeLines start stop table.size).2 =
      table.tokens.filter fun token => start ≤ token.line ∧ token.line < max stop (start + 1) := by
  have hle : (rangeLines start stop table.size).1 ≤ (rangeLines start stop table.size).2 :=
    Nat.min_le_right _ _
  rw [hcanonical.tokensIn_eq_filter hown hle]
  refine List.filter_congr fun token htoken => ?_
  rw [hcanonical.tokens_eq] at htoken
  have hline := (hown.mem_tokensIn htoken).2.1
  rw [decide_eq_decide]
  simp only [rangeLines]
  omega

/-- The data of a range and of batches has the tokens of the whole data on the lines asked for: the
range all at once, the batches cut at every `perBatch` lines; at least one line is asked for, and
at least one taken into a batch. -/
theorem range_and_batches_agree_with_full {table : TokenTable} (hcanonical : table.Canonical)
    (hown : table.OwnLines) (hfits : ∀ token ∈ table.tokens, token.Fits)
    (start stop perBatch : Nat) (hword : start + max perBatch 1 + table.size < UInt64.size) :
    let covered := table.tokens.filter fun token =>
      start ≤ token.line ∧ token.line < max stop (start + 1)
    let lines := rangeLines start stop table.size
    decode? (encodeFull table) = some table.tokens ∧
      decode? (encodeRange table start stop) = some covered ∧
      (∃ batches, encodeBatches? table lines.1 lines.2 perBatch = some batches ∧
        Batched lines.1 (max perBatch 1) covered batches) ∧
      ∃ batches, encodeBatches? table 0 table.size perBatch = some batches ∧
        Batched 0 (max perBatch 1) table.tokens batches := by
  intro covered lines
  have hcovered : table.tokensIn lines.1 lines.2 = covered :=
    tokensIn_rangeLines hcanonical hown start stop
  have hle : lines.1 ≤ lines.2 := Nat.min_le_right _ _
  have hsize : lines.2 ≤ table.size := Nat.min_le_right _ _
  refine ⟨?_, ?_, ?_, ?_⟩
  · rw [encodeFull, hcanonical.tokens_eq]
    exact decode?_tokensIn hown hfits _ _
  · rw [← hcovered]
    exact decode?_tokensIn hown hfits _ _
  · rw [← hcovered]
    exact batched_encodeBatches hown hfits hle hsize (by omega)
  · rw [hcanonical.tokens_eq]
    exact batched_encodeBatches hown hfits (Nat.zero_le _) (Nat.le_refl _) (by omega)

/-- Lines on both sides of the end of a chunk; the first batch has a line of each, and the last
lines have no token. -/
theorem range_and_batches_agree_with_full_over_chunks :
    let table : TokenTable := ⟨[List.replicate 255 none ++ [some ⟨255, 3, 6, .holds⟩],
      [some ⟨256, 0, 10, .fails⟩, none, some ⟨258, 2, 6, .holds⟩, none, none]], 261⟩
    let tokens : List Token := [⟨255, 3, 6, .holds⟩, ⟨256, 0, 10, .fails⟩, ⟨258, 2, 6, .holds⟩]
    table.Canonical ∧ table.OwnLines ∧ (∀ token ∈ table.tokens, token.Fits) ∧
      255 + max 2 1 + table.size < UInt64.size ∧ decode? (encodeRange table 255 270) = some tokens ∧
      encodeBatches? table 255 261 2 =
        some [[255, 3, 6, 15, 0, 1, 0, 10, 18, 0], [258, 2, 6, 15, 0]] ∧
      Batched 255 2 tokens [[255, 3, 6, 15, 0, 1, 0, 10, 18, 0], [258, 2, 6, 15, 0]] := by
  intro table tokens
  have hcanonical : table.Canonical := ⟨by decide +kernel, by decide +kernel, by decide +kernel⟩
  have hown : table.OwnLines := by decide +kernel
  have hfits : ∀ token ∈ table.tokens, token.Fits := by decide +kernel
  have hword : 255 + max 2 1 + table.size < UInt64.size := by decide
  have htokens : (table.tokens.filter fun token => 255 ≤ token.line ∧ token.line < 270) = tokens :=
    by decide +kernel
  have hdata : encodeBatches? table 255 261 2 =
      some [[255, 3, 6, 15, 0, 1, 0, 10, 18, 0], [258, 2, 6, 15, 0]] := by decide +kernel
  obtain ⟨-, hrange, ⟨batches, hanswer, hbatches⟩, -⟩ :=
    range_and_batches_agree_with_full hcanonical hown hfits 255 270 2 hword
  obtain rfl : _ = batches := Option.some.inj (hdata.symm.trans hanswer)
  exact ⟨hcanonical, hown, hfits, hword, htokens ▸ hrange, hdata, htokens ▸ hbatches⟩

end Encoding

end LineTokens
