import LineTokens.Buffer.Edit
import LineTokens.Wire.Messages

/-!
Changes of a client as edits, and the errors that a client is told.
-/

namespace LineTokens

inductive ServerError
  | unknownDocument (uri : String)
  | multiLineChange (startLine endLine : UInt32)
  | invertedRange (line : UInt32)
  | edit (error : EditError)
deriving DecidableEq, Repr

def ServerError.message : ServerError → String
  | unknownDocument uri => "document is not open: " ++ uri
  | multiLineChange startLine endLine =>
    "change spans lines " ++ toString startLine ++ "..=" ++ toString endLine
      ++ "; only single-line changes are supported"
  | invertedRange line => "change range on line " ++ toString line ++ " ends before it starts"
  | edit error => error.message

/-- A change as an edit. Its range lies on one line and does not end before it starts. -/
def ContentChange.edit (change : ContentChange) : Except ServerError Edit :=
  let start := change.range.start
  let stop := change.range.stop
  if start.line ≠ stop.line then .error (.multiLineChange start.line stop.line)
  else if stop.character < start.character then .error (.invertedRange start.line)
  else
    .ok {
      line := start.line.toNat
      column := start.character.toNat
      deleteLength := stop.character.toNat - start.character.toNat
      inserted := change.text.toList }

/-- The changes as edits, up to the first that is refused. -/
def ContentChange.edits : List ContentChange → Except ServerError (List Edit)
  | [] => .ok []
  | change :: rest =>
    match change.edit with
    | .error error => .error error
    | .ok edit =>
      match edits rest with
      | .error error => .error error
      | .ok rest => .ok (edit :: rest)

end LineTokens
