import LineTokens.Buffer.Edit
import LineTokens.LineSet
import LineTokens.Text.Flat

/-!
Snapshots: the text of a document at one point of its history. The lines are kept in one flat text,
and their number beside it, because an empty text stands for no line as well as for one empty line.
`apply` makes the snapshot that a batch of edits leads to.
-/

namespace LineTokens

structure Snapshot where
  text : FlatText
  lineCount : Nat
  /-- Characters on all lines, line feeds between lines not counted. -/
  length : Nat
  /-- Number of batches committed before. -/
  version : Nat
deriving DecidableEq, Repr

/-- A snapshot, and the lines that a batch changed on the way to it. -/
structure Change where
  snapshot : Snapshot
  changedLines : LineSet
deriving DecidableEq

/-- Offsets at which a line starts and stops, its line feed not included. -/
def FlatText.lineBounds? (text : FlatText) (lineCount line : Nat) : Option (Nat × Nat) :=
  if lineCount ≤ line then none
  else if line + 1 < lineCount then some (text.lineStart line, text.lineStart (line + 1) - 1)
  else some (text.lineStart line, text.length)

namespace Snapshot

def empty : Snapshot := ⟨[], 0, 0, 0⟩

instance : Inhabited Snapshot := ⟨empty⟩

def isEmpty (s : Snapshot) : Bool := s.length == 0

def lineBounds? (s : Snapshot) (line : Nat) : Option (Nat × Nat) :=
  s.text.lineBounds? s.lineCount line

def lineLength? (s : Snapshot) (line : Nat) : Option Nat :=
  (s.lineBounds? line).map fun (start, stop) => stop - start

def line? (s : Snapshot) (line : Nat) : Option (List Char) :=
  (s.lineBounds? line).map fun (start, stop) => s.text.slice start stop

def lines (s : Snapshot) : List (List Char) := (List.range s.lineCount).filterMap s.line?

/-- `lines` are the lines of the snapshot. -/
structure Represents (s : Snapshot) (lines : List (List Char)) : Prop where
  text_eq : s.text = Text.joinLines lines
  lineCount_eq : s.lineCount = lines.length
  length_eq : s.length = lines.flatten.length
  unbroken : ∀ line ∈ lines, Text.hasBreak line = false

theorem represents_empty : empty.Represents [] := ⟨rfl, rfl, rfl, by simp⟩

end Snapshot

/-- A snapshot in the making, while the edits of a batch are worked off. -/
structure Draft where
  text : FlatText
  lineCount : Nat
  length : Nat
  changed : LineSet
deriving DecidableEq

namespace Draft

/-- The draft with an edit done on the line that starts at offset `start`. -/
def splice (draft : Draft) (start : Nat) (edit : Edit) : Draft where
  text := (draft.text.remove (start + edit.column) edit.deleteLength).insertAt
    (start + edit.column) edit.inserted
  lineCount := draft.lineCount
  length := draft.length - edit.deleteLength + edit.inserted.length
  changed := draft.changed.insert edit.line

/-- The text with one more line after its `lineCount` lines. -/
def appendLine (text : FlatText) (lineCount : Nat) (line : List Char) : FlatText :=
  if lineCount = 0 then text ++ line else text ++ '\n' :: line

/-- The draft with an edit's text as one more line. -/
def append (draft : Draft) (edit : Edit) : Draft where
  text := appendLine draft.text draft.lineCount edit.inserted
  lineCount := draft.lineCount + 1
  length := draft.length + edit.inserted.length
  changed := draft.changed.insert edit.line

/-- One edit of a batch. That its text has no line break is checked before its range is. -/
def step (draft : Draft) (edit : Edit) : Except EditError Draft :=
  if Text.hasBreak edit.inserted then .error (.lineBreak edit.line)
  else
    match draft.text.lineBounds? draft.lineCount edit.line with
    | some (start, stop) =>
      if edit.stop ≤ stop - start then
        if edit.isNoop then .ok draft else .ok (draft.splice start edit)
      else .error (.ofEdit edit)
    | none =>
      if edit.line = draft.lineCount ∧ edit.column = 0 ∧ edit.deleteLength = 0 then
        .ok (draft.append edit)
      else .error (.ofEdit edit)

/-- The edits one after the other, up to the first that is refused. -/
def run (draft : Draft) : List Edit → Except EditError Draft
  | [] => .ok draft
  | edit :: rest =>
    match draft.step edit with
    | .error error => .error error
    | .ok draft => draft.run rest

end Draft

namespace Snapshot

def draft (s : Snapshot) : Draft := ⟨s.text, s.lineCount, s.length, .empty⟩

/-- The change that a finished draft makes, if it makes one. -/
def commit? (s : Snapshot) (draft : Draft) : Option Change :=
  if draft.changed.isEmpty then none
  else some ⟨⟨draft.text, draft.lineCount, draft.length, s.version + 1⟩, draft.changed⟩

/-- What a batch of edits makes of a snapshot: an error, no change, or the next snapshot. -/
def apply (s : Snapshot) (edits : List Edit) : Except EditError (Option Change) :=
  match s.draft.run (Edit.byColumn edits) with
  | .error error => .error error
  | .ok draft => .ok (s.commit? draft)

end Snapshot

end LineTokens
