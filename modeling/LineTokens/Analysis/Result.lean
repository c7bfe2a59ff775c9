import LineTokens.Token.Table

/-!
What an analysis publishes: the token table of a snapshot, and the patch that leads to it from the
table before.
-/

namespace LineTokens

structure AnalysisResult where
  /-- Number of completed passes. -/
  version : Nat
  /-- Version of the snapshot that was analysed. -/
  snapshotVersion : Nat
  table : TokenTable
deriving DecidableEq, Repr

def AnalysisResult.empty : AnalysisResult := ⟨0, 0, .empty⟩

/-- The new tokens of one line, and how many slots they replace: one, or none for a new line. -/
structure PatchEntry where
  line : Nat
  replacedLines : Nat
  tokens : List Token
deriving DecidableEq, Repr

/-- What a pass changed, and the version that it led to. -/
structure Patch where
  version : Nat
  entries : List PatchEntry
deriving DecidableEq, Repr

def Patch.isEmpty (patch : Patch) : Bool := patch.entries.isEmpty

/-- The slots with those that an entry replaces taken out and the entry's slot put in; `none` if
the replaced slots do not all exist. -/
def PatchEntry.replay? (entry : PatchEntry) (slots : List (Option Token)) :
    Option (List (Option Token)) :=
  if entry.line + entry.replacedLines ≤ slots.length then
    some (slots.take entry.line ++ entry.tokens.head? ::
      slots.drop (entry.line + entry.replacedLines))
  else none

/-- The slots after all entries, one by one. -/
def Patch.replay? (patch : Patch) (slots : List (Option Token)) : Option (List (Option Token)) :=
  patch.entries.foldlM (fun slots entry => entry.replay? slots) slots

end LineTokens
