import LineTokens.Buffer.Snapshot

/-!
Applying a batch, and reading a line, with every step guarded: a line or an offset that does not
exist, a subtraction below zero and a length that does not match the text all end in `none`. Where
the guarded form has an outcome, it is that of the form without guards.
-/

namespace LineTokens

/-- `none` below zero. -/
def sub? (m n : Nat) : Option Nat := if n ≤ m then some (m - n) else none

/-- `lineBounds?` with guarded look-ups; the outer `none` is a fault, the inner a missing line. -/
def FlatText.lineBoundsChecked? (text : FlatText) (lineCount line : Nat) :
    Option (Option (Nat × Nat)) :=
  if lineCount ≤ line then some none
  else do
    let start ← text.lineStart? line
    if line + 1 < lineCount then
      let next ← text.lineStart? (line + 1)
      return some (start, ← sub? next 1)
    else return some (start, text.length)

namespace Draft

def spliceChecked? (draft : Draft) (start : Nat) (edit : Edit) : Option Draft := do
  let removed ← draft.text.remove? (start + edit.column) edit.deleteLength
  let text ← removed.insertAt? (start + edit.column) edit.inserted
  let length ← sub? draft.length edit.deleteLength
  return ⟨text, draft.lineCount, length + edit.inserted.length, draft.changed.insert edit.line⟩

/-- The text of a draft, with a line feed after its last line if it has one. -/
def endedChecked? (draft : Draft) : Option FlatText :=
  if draft.lineCount = 0 then some draft.text
  else draft.text.insertAt? draft.text.length ['\n']

def appendChecked? (draft : Draft) (edit : Edit) : Option Draft := do
  let ended ← draft.endedChecked?
  let text ← ended.insertAt? ended.length edit.inserted
  return ⟨text, draft.lineCount + 1, draft.length + edit.inserted.length,
    draft.changed.insert edit.line⟩

def stepChecked? (draft : Draft) (edit : Edit) : Option (Except EditError Draft) :=
  if Text.hasBreak edit.inserted then some (.error (.lineBreak edit.line))
  else do
    match ← draft.text.lineBoundsChecked? draft.lineCount edit.line with
    | some (start, stop) =>
      let width ← sub? stop start
      if edit.stop ≤ width then
        if edit.isNoop then return .ok draft else return .ok (← draft.spliceChecked? start edit)
      else return .error (.ofEdit edit)
    | none =>
      if edit.line = draft.lineCount ∧ edit.column = 0 ∧ edit.deleteLength = 0 then
        return .ok (← draft.appendChecked? edit)
      else return .error (.ofEdit edit)

def runChecked? (draft : Draft) : List Edit → Option (Except EditError Draft)
  | [] => some (.ok draft)
  | edit :: rest =>
    match draft.stepChecked? edit with
    | none => none
    | some (.error error) => some (.error error)
    | some (.ok draft) => draft.runChecked? rest

/-- The length counts every character but the line feeds between lines, of which the text has no
fewer. -/
def Balanced (draft : Draft) : Prop :=
  sub? draft.text.length (draft.lineCount - 1) = some draft.length

instance (draft : Draft) : Decidable draft.Balanced :=
  inferInstanceAs (Decidable (sub? draft.text.length (draft.lineCount - 1) = some draft.length))

end Draft

namespace Snapshot

/-- `line?` with guarded look-ups; the outer `none` is a fault. -/
def lineChecked? (s : Snapshot) (line : Nat) : Option (Option (List Char)) := do
  match ← s.text.lineBoundsChecked? s.lineCount line with
  | some (start, stop) => return some (← s.text.slice? start stop)
  | none => return none

def lineLengthChecked? (s : Snapshot) (line : Nat) : Option (Option Nat) := do
  match ← s.text.lineBoundsChecked? s.lineCount line with
  | some (start, stop) => return some (← sub? stop start)
  | none => return none

def applyChecked? (s : Snapshot) (edits : List Edit) :
    Option (Except EditError (Option Change)) :=
  match s.draft.runChecked? (Edit.byColumn edits) with
  | none => none
  | some (.error error) => some (.error error)
  | some (.ok draft) =>
    if draft.changed.isEmpty ∨ draft.Balanced then some (.ok (s.commit? draft)) else none

end Snapshot

end LineTokens
