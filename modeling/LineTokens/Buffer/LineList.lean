import LineTokens.Buffer.Snapshot

/-!
Documents as plain lists of lines. A batch of edits does to a list of lines what it does to the
snapshot that the list stands for, without offsets, line feeds or counts to keep.
-/

namespace LineTokens

/-- A list of lines in the making, and the lines changed so far. -/
structure LineList where
  lines : List (List Char)
  changed : LineSet
deriving DecidableEq

namespace LineList

/-- A line with an edit's characters replaced. -/
def spliceLine (line : List Char) (edit : Edit) : List Char :=
  line.take edit.column ++ edit.inserted ++ line.drop edit.stop

def step (list : LineList) (edit : Edit) : Except EditError LineList :=
  if Text.hasBreak edit.inserted then .error (.lineBreak edit.line)
  else
    match list.lines[edit.line]? with
    | some line =>
      if edit.stop ≤ line.length then
        if edit.isNoop then .ok list
        else .ok ⟨list.lines.set edit.line (spliceLine line edit), list.changed.insert edit.line⟩
      else .error (.ofEdit edit)
    | none =>
      if edit.line = list.lines.length ∧ edit.column = 0 ∧ edit.deleteLength = 0 then
        .ok ⟨list.lines ++ [edit.inserted], list.changed.insert edit.line⟩
      else .error (.ofEdit edit)

def run (list : LineList) : List Edit → Except EditError LineList
  | [] => .ok list
  | edit :: rest =>
    match list.step edit with
    | .error error => .error error
    | .ok list => list.run rest

/-- The lines and the changed lines that a batch leads to. -/
def edit (lines : List (List Char)) (edits : List Edit) : Except EditError LineList :=
  run ⟨lines, .empty⟩ (Edit.byColumn edits)

end LineList

end LineTokens
