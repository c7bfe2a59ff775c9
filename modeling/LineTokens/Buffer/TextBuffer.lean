import LineTokens.Buffer.Snapshot
import LineTokens.Text.Display

/-!
Text buffers: the current snapshot of a document and the number of observers that are told of each
change to it.
-/

namespace LineTokens

structure TextBuffer where
  current : Snapshot
  observerCount : Nat
deriving DecidableEq, Repr

/-- A change told to one observer; observers are numbered in the order of subscription. -/
structure Delivery where
  observer : Nat
  change : Change
deriving DecidableEq

namespace TextBuffer

def empty : TextBuffer := ⟨.empty, 0⟩

def subscribe (buffer : TextBuffer) : TextBuffer :=
  { buffer with observerCount := buffer.observerCount + 1 }

/-- Applies a batch of edits. A batch that is refused or changes nothing leaves the buffer as it
is, and no observer is told of it. -/
def replace (buffer : TextBuffer) (edits : List Edit) :
    Except EditError (TextBuffer × Option Change) :=
  match buffer.current.apply edits with
  | .error error => .error error
  | .ok none => .ok (buffer, none)
  | .ok (some change) => .ok ({ buffer with current := change.snapshot }, some change)

def deliveries (buffer : TextBuffer) (change : Change) : List Delivery :=
  (List.range buffer.observerCount).map (⟨·, change⟩)

def display (buffer : TextBuffer) : String :=
  Text.displayRecord "TextBuffer" [
    ("version", toString buffer.current.version),
    ("line_count", toString buffer.current.lineCount),
    ("len", toString buffer.current.length),
    ("observer_count", toString buffer.observerCount)]

end TextBuffer

def changedLines : Option Change → LineSet
  | none => .empty
  | some change => change.changedLines

end LineTokens
