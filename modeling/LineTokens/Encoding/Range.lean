import LineTokens.Encoding.Data

/-!
Data of some of a table's lines: of the lines that a range request covers, and of lines in batches.
-/

namespace LineTokens.Encoding

/-- The lines that a request for `start` up to `stop` covers, in a document of `count` lines. At
least one line is covered, and none past the end. -/
def rangeLines (start stop count : Nat) : Nat × Nat :=
  let stop := min (max stop (start + 1)) count
  (min start stop, stop)

def encodeRange (table : TokenTable) (start stop : Nat) : List UInt32 :=
  let (first, last) := rangeLines start stop table.size
  encodeTokens (table.tokensIn first last)

/-- The sum of two counts, if it fits in a word of 64 bits. -/
def wordAdd? (m n : Nat) : Option Nat := if m + n < UInt64.size then some (m + n) else none

/-- The line after a batch of at most `step` lines from `start` that ends by line `stop`. The sum of
`start` and `step` may overflow; then there is no such batch. -/
def batchStop? (start step stop : Nat) : Option Nat := (wordAdd? start step).map (min · stop)

/-- The first lines of the batches of `step` lines from `start` up to `stop`. -/
def batchStarts (start stop step : Nat) : List Nat :=
  (List.range ((stop - start + step - 1) / step)).map (start + · * step)

def encodeBatch? (table : TokenTable) (step stop first : Nat) : Option (List UInt32) :=
  (batchStop? first step stop).map fun last => encodeTokens (table.tokensIn first last)

/-- The data of the lines from `start` up to `stop` in batches of `perBatch` lines, but at least of
one. A batch without a token is left out. There are no batches at all if a sum overflows. -/
def encodeBatches? (table : TokenTable) (start stop perBatch : Nat) :
    Option (List (List UInt32)) :=
  let step := max perBatch 1
  let stop := min stop table.size
  ((batchStarts start stop step).mapM (encodeBatch? table step stop)).map
    (·.filter (!·.isEmpty))

end LineTokens.Encoding
