import LineTokens.Proofs.Encoding.Decode
import Mathlib.Data.List.Pairwise

/-! Token data as a codec. The tokens that data is read as come in ascending order, and their
records are the data again; so encoding and decoding are inverse to each other, between the tokens
in ascending order whose numbers fit and the data that is made of whole records. -/

namespace LineTokens.Encoding

/-- Whole records one after the other, each with the id of a kind of token and without modifiers. -/
def IsRecords : List UInt32 → Prop
  | [] => True
  | _ :: _ :: _ :: typeId :: modifiers :: rest =>
    (∃ kind : TokenKind, typeId = kind.typeId) ∧ modifiers = 0 ∧ IsRecords rest
  | _ => False

theorem typeId_of_ofTypeId? {typeId : UInt32} {kind : TokenKind}
    (h : TokenKind.ofTypeId? typeId = some kind) : kind.typeId = typeId := by
  have := List.find?_some h
  simpa using this

theorem clamp_toNat_self (word : UInt32) : clamp word.toNat = word := by
  rw [← UInt32.toNat_inj, clamp_toNat word.toNat_lt_size]

/-- Data that is made of records is read. -/
theorem exists_decodeFrom? {data : List UInt32} (h : IsRecords data) (line start : Nat) :
    ∃ tokens, decodeFrom? line start data = some tokens := by
  fun_induction IsRecords data generalizing line start with
  | case1 => exact ⟨[], rfl⟩
  | case2 deltaLine deltaStart length typeId modifiers rest ih =>
    obtain ⟨⟨kind, rfl⟩, rfl, hrest⟩ := h
    rw [decodeFrom?, if_neg (by simp), TokenKind.ofTypeId?_typeId]
    obtain ⟨tokens, htokens⟩ := ih hrest (line + deltaLine.toNat)
      (if deltaLine = 0 then start + deltaStart.toNat else deltaStart.toNat)
    exact ⟨_, Option.map_eq_some_iff.mpr ⟨tokens, htokens, rfl⟩⟩
  | case3 => exact absurd h id

/-- The record of a token that was read from a record is that record. -/
theorem encodeFrom_decoded (line start : Nat) (deltaLine deltaStart length : UInt32)
    (kind : TokenKind) (rest : List Token) :
    let start' := if deltaLine = 0 then start + deltaStart.toNat else deltaStart.toNat
    encodeFrom line start (⟨line + deltaLine.toNat, start', length.toNat, kind⟩ :: rest) =
      deltaLine :: deltaStart :: length :: kind.typeId :: 0 ::
        encodeFrom (line + deltaLine.toNat) start' rest := by
  intro start'
  have hline : line + deltaLine.toNat - line = deltaLine.toNat := Nat.add_sub_cancel_left _ _
  have hstart : (if deltaLine.toNat = 0 then start' - start else start') = deltaStart.toNat := by
    by_cases hzero : deltaLine = 0
    · simp only [start', hzero, UInt32.toNat_zero, if_true]
      exact Nat.add_sub_cancel_left _ _
    · have hne : deltaLine.toNat ≠ 0 := fun h => hzero (UInt32.toNat_inj.mp h)
      simp only [start', hzero, hne, if_false]
  simp only [encodeFrom, hline, hstart, clamp_toNat_self]

/-- What is read as tokens is their data. -/
theorem encodeFrom_of_decodeFrom? {line start : Nat} {data : List UInt32} {tokens : List Token}
    (h : decodeFrom? line start data = some tokens) : encodeFrom line start tokens = data := by
  fun_induction decodeFrom? line start data generalizing tokens with
  | case1 =>
    cases h
    rfl
  | case2 => cases h
  | case3 => cases h
  | case4 line start deltaLine deltaStart length typeId modifiers rest hmodifiers kind hkind line'
      start' =>
    rename_i ih
    obtain ⟨later, hlater, rfl⟩ := Option.map_eq_some_iff.mp h
    obtain rfl : modifiers = 0 := Classical.not_not.mp hmodifiers
    rw [encodeFrom_decoded, ih hlater, typeId_of_ofTypeId? hkind]
  | case5 => cases h

theorem ascends_of_pairwise {line start : Nat} {tokens : List Token}
    (hfirst : ∀ token ∈ tokens, line < token.line ∨ line = token.line ∧ start ≤ token.start)
    (hpairwise : tokens.Pairwise fun a b => a.line < b.line ∨ a.line = b.line ∧ a.start ≤ b.start) :
    Ascends line start tokens := by
  induction tokens generalizing line start with
  | nil => trivial
  | cons token rest ih =>
    obtain ⟨hhead, htail⟩ := List.pairwise_cons.mp hpairwise
    exact ⟨hfirst token List.mem_cons_self, ih hhead htail⟩

/-- Ascending tokens whose records fit are read back from their data, and data made of records is
the data of the tokens that it is read as. -/
theorem encode_decode_inverse :
    (∀ tokens : List Token,
      (tokens.Pairwise fun a b => a.line < b.line ∨ a.line = b.line ∧ a.start ≤ b.start) →
      DeltasFit 0 0 tokens → decode? (encodeTokens tokens) = some tokens) ∧
    (∀ data, IsRecords data →
      ∃ tokens, decode? data = some tokens ∧ encodeTokens tokens = data) := by
  constructor
  · intro tokens hordered hfits
    refine decodeFrom?_encodeFrom (ascends_of_pairwise (fun token _ => ?_) hordered) hfits
    omega
  · intro data hrecords
    obtain ⟨tokens, htokens⟩ := exists_decodeFrom? hrecords 0 0
    exact ⟨tokens, htokens, encodeFrom_of_decodeFrom? htokens⟩

/-- Two tokens of one line whose starts are too large for a word, though not the way from the one to
the other; then a line far below. -/
theorem encode_decode_inverse_far_apart :
    let tokens : List Token := [⟨0, 7, 1, .holds⟩, ⟨0, 4294967298, 10, .fails⟩,
      ⟨0, 4294967300, 6, .holds⟩, ⟨4294967295, 0, 6, .holds⟩, ⟨8589934590, 5, 6, .holds⟩]
    let data : List UInt32 :=
      [0, 7, 1, 15, 0, 0, 4294967291, 10, 18, 0, 0, 2, 6, 15, 0, 4294967295, 0, 6, 15, 0,
        4294967295, 5, 6, 15, 0]
    (tokens.Pairwise fun a b => a.line < b.line ∨ a.line = b.line ∧ a.start ≤ b.start) ∧
      DeltasFit 0 0 tokens ∧ decode? (encodeTokens tokens) = some tokens ∧
      IsRecords data ∧ ∃ read, decode? data = some read ∧ encodeTokens read = data := by
  intro tokens data
  have hordered : tokens.Pairwise fun a b =>
      a.line < b.line ∨ a.line = b.line ∧ a.start ≤ b.start := by decide
  have hfits : DeltasFit 0 0 tokens := by simp [tokens, DeltasFit, UInt32.size]
  have hrecords : IsRecords data :=
    ⟨⟨.holds, rfl⟩, rfl, ⟨.fails, rfl⟩, rfl, ⟨.holds, rfl⟩, rfl, ⟨.holds, rfl⟩, rfl, ⟨.holds, rfl⟩,
      rfl, trivial⟩
  exact ⟨hordered, hfits, encode_decode_inverse.1 tokens hordered hfits, hrecords,
    encode_decode_inverse.2 data hrecords⟩

end LineTokens.Encoding
