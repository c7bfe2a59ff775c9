import LineTokens.Text.Lines

/-!
Edits of a document. An edit replaces characters within one line, or appends a line. The edits of a
batch are worked off by descending column, so that an edit does not move the columns of those that
come after it on its line.
-/

namespace LineTokens

structure Edit where
  line : Nat
  column : Nat
  /-- Characters removed at `column`. -/
  deleteLength : Nat
  /-- Characters put in at `column` after that. -/
  inserted : List Char
deriving DecidableEq, Repr

namespace Edit

/-- Appends a line if there are `line` lines. -/
def insertLine (line : Nat) (text : List Char) : Edit := ⟨line, 0, 0, text⟩

def isNoop (edit : Edit) : Bool := edit.deleteLength == 0 && edit.inserted.isEmpty

def stop (edit : Edit) : Nat := edit.column + edit.deleteLength

/-- An edit put before those with an equal or a smaller column. -/
def insertByColumn (edit : Edit) : List Edit → List Edit
  | [] => [edit]
  | first :: rest =>
    if first.column ≤ edit.column then edit :: first :: rest
    else first :: insertByColumn edit rest

/-- The edits by descending column; edits with equal columns keep their order. -/
def byColumn (edits : List Edit) : List Edit := edits.foldr insertByColumn []

/-- Edits that append lines, the first of them as line `line`. -/
def insertLines (line : Nat) : List (List Char) → List Edit
  | [] => []
  | text :: rest => insertLine line text :: insertLines (line + 1) rest

end Edit

/-- Why a batch is refused; a refused batch changes nothing. -/
inductive EditError
  | outOfRange (line column deleteLength : Nat)
  | lineBreak (line : Nat)
deriving DecidableEq, Repr

namespace EditError

def message : EditError → String
  | outOfRange line column deleteLength =>
    "edit at line " ++ toString line ++ ", column " ++ toString column ++ " deleting "
      ++ toString deleteLength ++ " chars is outside the document"
  | lineBreak line => "edit at line " ++ toString line ++ " inserts a line break"

/-- The edit addresses characters that do not exist. -/
def ofEdit (edit : Edit) : EditError := outOfRange edit.line edit.column edit.deleteLength

end EditError

end LineTokens
