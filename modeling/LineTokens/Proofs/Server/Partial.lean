import LineTokens.Proofs.Encoding.Batches
import LineTokens.Server.Basic

/-! Partial answers under all options. A batch ends where its first line and the number of lines in
a batch add up to, and a request breaks off in a sum that leaves a word. For all lines of a document
the sums fit a word, as a batch of more lines than the document has is the only one. For a range
that does not start with line 0 the option can be too large: then the sum of the only batch
overflows, and there is no answer. -/

namespace LineTokens

namespace Encoding

variable {table : TokenTable} {start stop step first : Nat}

/-- A batch of as many lines as are asked for is the only one. -/
theorem eq_start_of_mem_batchStarts (hstep : 0 < step) (hone : stop - start ≤ step)
    (h : first ∈ batchStarts start stop step) : first = start := by
  obtain ⟨number, hnumber, rfl⟩ := List.mem_map.mp h
  have hlt := mul_lt_of_lt_div hstep (List.mem_range.mp hnumber)
  have hzero : number = 0 := by
    by_contra hne
    have := Nat.le_mul_of_pos_left step (Nat.pos_of_ne_zero hne)
    omega
  rw [hzero, Nat.zero_mul, Nat.add_zero]

theorem start_mem_batchStarts (hstep : 0 < step) (h : start < stop) :
    start ∈ batchStarts start stop step := by
  refine List.mem_map.mpr ⟨0, List.mem_range.mpr (Nat.div_pos (by omega) hstep), ?_⟩
  rw [Nat.zero_mul, Nat.add_zero]

/-- With lines for half a word at most, the sums fit if the first one does. -/
theorem sumsFit_iff (hstep : 0 < step) (hstop : 2 * stop ≤ UInt64.size) :
    SumsFit start stop step ↔ (start < stop → start + step < UInt64.size) := by
  constructor
  · exact fun h hlt => h start (start_mem_batchStarts hstep hlt)
  · intro h first hfirst
    obtain ⟨hle, hlt⟩ := bounds_of_mem_batchStarts hstep hfirst
    by_cases hone : stop - start ≤ step
    · rw [eq_start_of_mem_batchStarts hstep hone hfirst]
      exact h (by omega)
    · omega

/-- Batches are the data of parts of tokens, which they have all of, in order. -/
def Carries (batches : List (List UInt32)) (tokens : List Token) : Prop :=
  ∃ parts : List (List Token), batches = parts.map encodeTokens ∧ parts.flatten = tokens

theorem carries_encodeBatches {perBatch : Nat} (hle : start ≤ stop) (hstop : stop ≤ table.size)
    (hsums : SumsFit start stop (max perBatch 1)) :
    ∃ batches, encodeBatches? table start stop perBatch = some batches ∧
      Carries batches (table.tokensIn start stop) := by
  refine ⟨_, encodeBatches?_eq_some hstop hsums, (occupied table start stop (max perBatch 1)).map
    (window table start stop (max perBatch 1)), ?_, ?_⟩
  · rw [List.map_map]
    rfl
  · rw [← List.flatMap_def, flatMap_occupied table hle (by omega)]

end Encoding

theorem ServerOptions.batchLines_bounds (options : ServerOptions) :
    0 < options.batchLines ∧ options.batchLines < UInt64.size := by
  have hlt : options.partialBatchLines.toNat < UInt64.size := options.partialBatchLines.toNat_lt
  have hone : 1 < UInt64.size := by decide
  rw [batchLines]
  omega

namespace Server

open Encoding

variable {s : Server} {uri : String} {result : AnalysisResult}

theorem max_batchLines (options : ServerOptions) :
    max options.batchLines 1 = options.batchLines :=
  Nat.max_eq_left options.batchLines_bounds.1

/-- A document of lines for half a word at most. Partial answers on all of its lines have all tokens
under all options, and no sum leaves a word. Those on a range are of that kind if and only if the
first line asked for and the number of lines in a batch add up to a word; otherwise the request
breaks off. -/
theorem partial_answers_keep_tokens (hresult : s.result uri = .ok result)
    (hsize : 2 * result.table.size ≤ UInt64.size) (range : Range) :
    let table := result.table
    let step := s.options.batchLines
    let lines := rangeLines range.start.line.toNat range.stop.line.toNat table.size
    (SumsFit 0 table.size step ∧
      ∃ batches, s.tokensFullPartial uri = .ok (some (batches.map (⟨·⟩))) ∧
        Carries batches (table.tokensIn 0 table.size)) ∧
    (SumsFit lines.1 lines.2 step ↔ (lines.1 < lines.2 → lines.1 + step < UInt64.size)) ∧
    (SumsFit lines.1 lines.2 step →
      ∃ batches, s.tokensRangePartial uri range = .ok (some (batches.map (⟨·⟩))) ∧
        Carries batches (table.tokensIn lines.1 lines.2)) ∧
    (¬SumsFit lines.1 lines.2 step → s.tokensRangePartial uri range = .ok none) := by
  intro table step lines
  obtain ⟨hpos, hword⟩ := s.options.batchLines_bounds
  have hmax : max s.options.batchLines 1 = step := max_batchLines s.options
  have hle : lines.1 ≤ lines.2 := Nat.min_le_right _ _
  have hstop : lines.2 ≤ table.size := Nat.min_le_right _ _
  have hhalf : 2 * table.size ≤ UInt64.size := hsize
  have hall : s.tokensFullPartial uri =
      .ok ((encodeBatches? table 0 table.size s.options.batchLines).map (·.map (⟨·⟩))) := by
    rw [tokensFullPartial, hresult]
    rfl
  have hrange : s.tokensRangePartial uri range =
      .ok ((encodeBatches? table lines.1 lines.2 s.options.batchLines).map (·.map (⟨·⟩))) := by
    rw [tokensRangePartial, hresult]
    rfl
  have hfull : SumsFit 0 table.size step :=
    (sumsFit_iff hpos hsize).mpr fun _ => (Nat.zero_add step).symm ▸ hword
  refine ⟨⟨hfull, ?_⟩, sumsFit_iff hpos (by omega), fun hsums => ?_, fun hover => ?_⟩
  · obtain ⟨batches, hbatches, hcarries⟩ :=
      carries_encodeBatches (Nat.zero_le _) (Nat.le_refl _) (hmax ▸ hfull)
    exact ⟨batches, by rw [hall, hbatches, Option.map_some], hcarries⟩
  · obtain ⟨batches, hbatches, hcarries⟩ := carries_encodeBatches hle hstop (hmax ▸ hsums)
    exact ⟨batches, by rw [hrange, hbatches, Option.map_some], hcarries⟩
  · rw [hrange, encodeBatches?_eq_none hstop (hmax ▸ hover), Option.map_none]

/-- As many lines in a batch as a word can count, and a range from line 0. -/
theorem partial_answers_keep_tokens_largest_batch :
    let options : ServerOptions := ⟨.default, 18446744073709551615, none⟩
    let s := ((start .firstBang options).didOpen "u" "x\ny!".toList).1
    let range : Range := ⟨⟨0, 0⟩, ⟨2, 0⟩⟩
    ∃ result batches, s.result "u" = .ok result ∧ 2 * result.table.size ≤ UInt64.size ∧
      SumsFit 0 2 s.options.batchLines ∧
      s.tokensRangePartial "u" range = .ok (some (batches.map (⟨·⟩))) ∧
      Carries batches [⟨1, 1, 1, .holds⟩] := by
  intro options s range
  have htable : (s.result "u").toOption.map (·.table) =
      some ⟨[[none, some ⟨1, 1, 1, .holds⟩]], 2⟩ := by decide +kernel
  obtain ⟨result, hsome, htable⟩ := Option.map_eq_some_iff.mp htable
  have hresult : s.result "u" = .ok result := by
    cases h : s.result "u" with
    | error error => rw [h] at hsome; cases hsome
    | ok found => rw [h] at hsome; cases hsome; rfl
  have hsize : 2 * result.table.size ≤ UInt64.size := by rw [htable]; decide
  obtain ⟨-, hiff, hkept, -⟩ := partial_answers_keep_tokens hresult hsize range
  rw [htable] at hiff hkept
  have hsums : SumsFit 0 2 s.options.batchLines := hiff.mpr fun _ => by decide +kernel
  obtain ⟨batches, hanswer, hcarries⟩ := hkept hsums
  have htokens : (⟨[[none, some ⟨1, 1, 1, .holds⟩]], 2⟩ : TokenTable).tokensIn 0 2 =
      [⟨1, 1, 1, .holds⟩] := by decide +kernel
  exact ⟨result, batches, hresult, hsize, hsums, hanswer, htokens ▸ hcarries⟩

/-- With that many lines in a batch, a request for a range from line 1, which has a token, breaks
off. -/
theorem partial_answer_overflows :
    let json : Json := .obj [("partialBatchLines", .int 18446744073709551615)]
    let options : ServerOptions := ⟨.default, 18446744073709551615, none⟩
    let s := ((start .firstBang options).didOpen "u" "x\ny!".toList).1
    let range : Range := ⟨⟨1, 0⟩, ⟨2, 0⟩⟩
    ServerOptions.ofInitialValue? (some json) = some options ∧
      rangeLines 1 2 2 = (1, 2) ∧ 1 ∈ batchStarts 1 2 options.batchLines ∧
      1 + options.batchLines = UInt64.size ∧
      s.tokensRange "u" range = .ok ⟨none, [1, 1, 1, 15, 0]⟩ ∧
      s.tokensRangePartial "u" range = .ok none := by
  decide +kernel

end Server

end LineTokens
