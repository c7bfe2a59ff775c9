import LineTokens.Legend
import LineTokens.Token.Table

/-!
Token data: each token is a record of five words, namely the line and the start relative to the
token before, the length, the type and the modifiers. The start is relative only on the line of the
token before. Every unit that is encoded by itself starts from line 0 and start 0. `decode?` reads
such data back.
-/

namespace LineTokens.Encoding

def recordWidth : Nat := 5

/-- A count as a word, the greatest word for a count too large for one. -/
def clamp (count : Nat) : UInt32 := if count < UInt32.size then UInt32.ofNat count else 0xffffffff

/-- The data of tokens that follow a token on line `line` at `start`. -/
def encodeFrom (line start : Nat) : List Token → List UInt32
  | [] => []
  | token :: rest =>
    let deltaLine := token.line - line
    let deltaStart := if deltaLine = 0 then token.start - start else token.start
    clamp deltaLine :: clamp deltaStart :: clamp token.length :: token.kind.typeId :: 0 ::
      encodeFrom token.line token.start rest

def encodeTokens (tokens : List Token) : List UInt32 := encodeFrom 0 0 tokens

/-- The tokens of data that follows a token on line `line` at `start`. A record that is cut short,
that has a modifier or whose type no kind of token has is refused. -/
def decodeFrom? (line start : Nat) : List UInt32 → Option (List Token)
  | [] => some []
  | deltaLine :: deltaStart :: length :: typeId :: modifiers :: rest =>
    if modifiers ≠ 0 then none
    else
      match TokenKind.ofTypeId? typeId with
      | none => none
      | some kind =>
        let line' := line + deltaLine.toNat
        let start' := if deltaLine = 0 then start + deltaStart.toNat else deltaStart.toNat
        (decodeFrom? line' start' rest).map (⟨line', start', length.toNat, kind⟩ :: ·)
  | _ => none

def decode? (data : List UInt32) : Option (List Token) := decodeFrom? 0 0 data

/-- The data of every token of a table. -/
def encodeFull (table : TokenTable) : List UInt32 := encodeTokens table.tokens

@[simp] theorem clamp_toNat {count : Nat} (h : count < UInt32.size) :
    (clamp count).toNat = count := by
  rw [clamp, if_pos h, UInt32.toNat_ofNat']
  exact Nat.mod_eq_of_lt h

theorem length_encodeFrom (line start : Nat) (tokens : List Token) :
    (encodeFrom line start tokens).length = recordWidth * tokens.length := by
  induction tokens generalizing line start with
  | nil => rfl
  | cons token rest ih =>
    simp only [encodeFrom, List.length_cons, ih, recordWidth]
    omega

end LineTokens.Encoding
