import LineTokens.Analysis.Result
import LineTokens.Encoding.Data
import LineTokens.Wire.Messages

/-!
Patches as edits of token data. An entry's edit is addressed by five words for each line before it,
and its tokens are encoded by themselves.
-/

namespace LineTokens

namespace Encoding

def encodeEntry (entry : PatchEntry) : TokensEdit where
  start := clamp (entry.line * recordWidth)
  deleteCount := clamp (entry.replacedLines * recordWidth)
  data := encodeTokens entry.tokens

def encodePatch (patch : Patch) : TokensDelta :=
  ⟨toString patch.version, patch.entries.map encodeEntry⟩

end Encoding

/-- Data with edits done, in ascending order. Their indices refer to the data before all edits, of
which `data` is the part from index `offset` on; an index past the end means the end. -/
def TokensEdit.spliceFrom (offset : Nat) (data : List UInt32) : List TokensEdit → List UInt32
  | [] => data
  | edit :: rest =>
    let stop := edit.start.toNat + edit.deleteCount.toNat
    data.take (edit.start.toNat - offset) ++ edit.data ++
      spliceFrom stop (data.drop (stop - offset)) rest

def TokensDelta.splice (delta : TokensDelta) (data : List UInt32) : List UInt32 :=
  TokensEdit.spliceFrom 0 data delta.edits

/-- The line that an edit addresses. -/
def TokensEdit.line (edit : TokensEdit) : Nat := edit.start.toNat / Encoding.recordWidth

/-- The tokens of lines, with the one line that an edit addresses given the edit's token, or none if
the edit has none. -/
def TokensEdit.updateLine (edit : TokensEdit) (tokens : Nat → Option Token) (line : Nat) :
    Option Token :=
  if line = edit.line then
    (Encoding.decode? edit.data).bind List.head?
  else tokens line

def TokensDelta.updateLines (delta : TokensDelta) (tokens : Nat → Option Token) :
    Nat → Option Token :=
  delta.edits.foldl (fun tokens edit => edit.updateLine tokens) tokens

end LineTokens
