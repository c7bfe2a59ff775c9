import LineTokens.Text.Lines

/-!
A flat text is a document's characters in one sequence, in which a line feed alone separates lines.
Lines are addressed by number and characters by offset. Each operation is total; the version whose
name ends in a question mark answers `none` where the line number or the offsets do not exist.
-/

namespace LineTokens

/-- The characters of a document, with a line feed between each two lines. -/
abbrev FlatText := List Char

namespace FlatText

/-- Offset at which a line starts: just past as many line feeds as there are lines before it. A
line past the last one starts at the end of the text. -/
def lineStart : FlatText → Nat → Nat
  | _, 0 => 0
  | [], _ + 1 => 0
  | c :: rest, line + 1 => (if c = '\n' then lineStart rest line else lineStart rest (line + 1)) + 1

/-- The text without the `count` characters at offset `start`. -/
def remove (text : FlatText) (start count : Nat) : FlatText :=
  text.take start ++ text.drop (start + count)

def insertAt (text : FlatText) (start : Nat) (inserted : List Char) : FlatText :=
  text.take start ++ inserted ++ text.drop start

def slice (text : FlatText) (start stop : Nat) : List Char :=
  (text.drop start).take (stop - start)

/-- One more line than there are line feeds, so that an empty text has one line. -/
def lineTotal (text : FlatText) : Nat := text.count '\n' + 1

/-- `none` for a line number above the number of lines. -/
def lineStart? (text : FlatText) (line : Nat) : Option Nat :=
  if line ≤ text.lineTotal then some (text.lineStart line) else none

/-- `none` if the removed characters do not all exist. -/
def remove? (text : FlatText) (start count : Nat) : Option FlatText :=
  if start + count ≤ text.length then some (text.remove start count) else none

/-- `none` for an offset past the end. -/
def insertAt? (text : FlatText) (start : Nat) (inserted : List Char) : Option FlatText :=
  if start ≤ text.length then some (text.insertAt start inserted) else none

/-- `none` if the offsets are out of order or past the end. -/
def slice? (text : FlatText) (start stop : Nat) : Option (List Char) :=
  if start ≤ stop ∧ stop ≤ text.length then some (text.slice start stop) else none

@[simp] theorem lineStart_zero (text : FlatText) : text.lineStart 0 = 0 := by
  cases text <;> rfl

theorem length_remove {text : FlatText} {start count : Nat} (h : start + count ≤ text.length) :
    (text.remove start count).length = text.length - count := by
  simp only [remove, List.length_append, List.length_take, List.length_drop]
  omega

end FlatText

end LineTokens
