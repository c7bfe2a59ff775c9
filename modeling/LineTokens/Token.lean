/-!
Tokens. A line carries at most one token, which spans the line's comparison keyword and says whether
the comparison holds. Columns and lengths count characters.
-/

namespace LineTokens

inductive TokenKind
  | holds
  | fails
deriving DecidableEq, Repr, Inhabited

namespace TokenKind

def all : List TokenKind := [holds, fails]

def ofOutcome (outcome : Bool) : TokenKind := if outcome then holds else fails

end TokenKind

structure Token where
  line : Nat
  start : Nat
  length : Nat
  kind : TokenKind
deriving DecidableEq, Repr, Inhabited

/-- The token of a line, from the line's number and its text. Being a function, it gives unchanged
lines the token they had. -/
abbrev Tokenizer := Nat → List Char → Option Token

/-- Every token carries the number of the line it was made for. -/
def Tokenizer.KeepsLine (tokenizer : Tokenizer) : Prop :=
  ∀ line text token, tokenizer line text = some token → token.line = line

/-- One token of length one at the first exclamation mark, holding if that mark ends the line. -/
def Tokenizer.firstBang : Tokenizer := fun line text =>
  let start := text.findIdx (· == '!')
  if start < text.length then
    some ⟨line, start, 1, .ofOutcome (start + 1 == text.length)⟩
  else
    none

theorem Tokenizer.keepsLine_firstBang : firstBang.KeepsLine := by
  intro line text token htoken
  unfold firstBang at htoken
  dsimp only at htoken
  split at htoken
  · cases htoken
    rfl
  · cases htoken

end LineTokens
