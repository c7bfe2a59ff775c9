import LineTokens.Encoding.Patch
import LineTokens.Proofs.Analysis.Pass

/-! Token data read back. Tokens in ascending order, the numbers of whose records fit in a word, are
decoded as they were encoded; so an edit of a patch tells a client the new token of a line, and all
edits together lead its map of the table before to that of the table after. -/

namespace LineTokens

/-- The numbers of a token fit in a word. -/
structure Token.Fits (token : Token) : Prop where
  line_lt : token.line < UInt32.size
  start_lt : token.start < UInt32.size
  length_lt : token.length < UInt32.size

instance (token : Token) : Decidable token.Fits :=
  decidable_of_iff
    (token.line < UInt32.size ∧ token.start < UInt32.size ∧ token.length < UInt32.size)
    ⟨fun h => ⟨h.1, h.2.1, h.2.2⟩, fun h => ⟨h.line_lt, h.start_lt, h.length_lt⟩⟩

namespace Encoding

/-- Each token is after the one before it, and the first one after `start` on line `line`. -/
def Ascends (line start : Nat) : List Token → Prop
  | [] => True
  | token :: rest =>
    (line < token.line ∨ line = token.line ∧ start ≤ token.start) ∧
      Ascends token.line token.start rest

/-- The numbers in the records of tokens that follow one on line `line` at `start` fit in a word: by
how many lines each token is after the one before it, its start, counted from that of the one
before if they are on the same line, and its length. -/
def DeltasFit (line start : Nat) : List Token → Prop
  | [] => True
  | token :: rest =>
    (token.line - line < UInt32.size ∧
        (if token.line = line then token.start - start else token.start) < UInt32.size ∧
        token.length < UInt32.size) ∧
      DeltasFit token.line token.start rest

theorem clamp_eq_zero_iff {count : Nat} (h : count < UInt32.size) :
    clamp count = 0 ↔ count = 0 := by
  rw [← UInt32.toNat_inj, clamp_toNat h]
  rfl

theorem decodeFrom?_encodeFrom {line start : Nat} {tokens : List Token}
    (hascends : Ascends line start tokens) (hfits : DeltasFit line start tokens) :
    decodeFrom? line start (encodeFrom line start tokens) = some tokens := by
  induction tokens generalizing line start with
  | nil => rfl
  | cons token rest ih =>
    obtain ⟨horder, hrest⟩ := hascends
    obtain ⟨⟨hdelta, hstart, hlength⟩, hfits⟩ := hfits
    have hrest' := ih hrest hfits
    have hline : line + (clamp (token.line - line)).toNat = token.line := by
      rw [clamp_toNat hdelta]
      omega
    rw [encodeFrom, decodeFrom?, if_neg (by simp), TokenKind.ofTypeId?_typeId]
    simp only [hline, clamp_toNat hlength, clamp_eq_zero_iff hdelta]
    by_cases hsame : token.line - line = 0
    · have heq : token.line = line := by omega
      rw [if_pos heq] at hstart
      have hstart' : start + (clamp (token.start - start)).toNat = token.start := by
        rw [clamp_toNat hstart]
        omega
      simp only [if_pos hsame, hstart', hrest']
      rfl
    · have hne : token.line ≠ line := by omega
      rw [if_neg hne] at hstart
      simp only [if_neg hsame, clamp_toNat hstart, hrest']
      rfl

theorem decode?_encodeTokens_toList {token : Option Token} (h : ∀ t, token = some t → t.Fits) :
    decode? (encodeTokens token.toList) = some token.toList := by
  cases token with
  | none => rfl
  | some t =>
    obtain ⟨hline, hstart, hlength⟩ := h t rfl
    refine decodeFrom?_encodeFrom ⟨by omega, trivial⟩ ⟨⟨hline, ?_, hlength⟩, trivial⟩
    split
    · exact hstart
    · exact hstart

end Encoding

/-- Five words for each line, and the numbers of each token, fit in a word. -/
structure TokenTable.Fits (table : TokenTable) : Prop where
  line_lt : ∀ line, line < table.size → line * Encoding.recordWidth < UInt32.size
  token : ∀ token ∈ table.tokens, token.Fits

theorem TokenTable.mem_tokens_of_get? {table : TokenTable} {line : Nat} {token : Token}
    (h : table.get? line = some token) : token ∈ table.tokens := by
  unfold get? at h
  split at h
  · cases h
  · rename_i chunk hchunk
    have hslot : some token ∈ chunk := by
      cases hget : chunk[line % chunkLines]? with
      | none => rw [hget] at h; cases h
      | some slot =>
        rw [hget] at h
        obtain rfl : slot = some token := h
        exact List.mem_of_getElem? hget
    have hslots : some token ∈ table.slots :=
      List.mem_flatten.mpr ⟨chunk, List.mem_of_getElem? hchunk, hslot⟩
    exact List.mem_filterMap.mpr ⟨some token, hslots, rfl⟩

theorem Encoding.line_encodeEntry {entry : PatchEntry}
    (hline : entry.line * recordWidth < UInt32.size) : (encodeEntry entry).line = entry.line := by
  rw [TokensEdit.line, encodeEntry, clamp_toNat hline]
  exact Nat.mul_div_cancel _ (by decide)

/-- An edit that the encoded entry makes of a client's map. -/
theorem Encoding.updateLine_encodeEntry {entry : PatchEntry} {token : Option Token}
    (hline : entry.line * recordWidth < UInt32.size) (htokens : entry.tokens = token.toList)
    (hfits : ∀ t, token = some t → t.Fits) (tokens : Nat → Option Token) :
    (encodeEntry entry).updateLine tokens =
      fun line => if line = entry.line then entry.tokens.head? else tokens line := by
  funext line
  have hdata : decode? (encodeEntry entry).data = some entry.tokens := by
    rw [encodeEntry, htokens]
    exact decode?_encodeTokens_toList hfits
  rw [TokensEdit.updateLine, line_encodeEntry hline, hdata]
  rfl

/-- The edits of a patch lead a client's map of the table before to that of the table after. -/
theorem Patch.Leads.updateLines_eq {patch : Patch} {before after : AnalysisResult}
    (h : patch.Leads before after) (hfits : after.table.Fits) :
    (Encoding.encodePatch patch).updateLines before.table.get? = after.table.get? := by
  rw [← h.overlay_eq, TokensDelta.updateLines, overlay, Encoding.encodePatch, List.foldl_map]
  have hentries := h.entries_new
  generalize before.table.get? = tokens
  generalize patch.entries = entries at hentries ⊢
  induction entries generalizing tokens with
  | nil => rfl
  | cons entry rest ih =>
    obtain ⟨hline, htokens⟩ := hentries entry List.mem_cons_self
    rw [List.foldl_cons, List.foldl_cons,
      Encoding.updateLine_encodeEntry (hfits.line_lt _ hline) htokens fun token htoken =>
        hfits.token token (TokenTable.mem_tokens_of_get? htoken)]
    exact ih _ fun other hother => hentries other (List.mem_cons_of_mem _ hother)

end LineTokens
