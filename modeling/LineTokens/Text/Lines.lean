/-!
Lines of a text. `splitLines` cuts a text at its line terminators, `terminators` lists them, and
`rejoin` puts the two back together; `joinLines` is the form in which a buffer stores lines.
-/

namespace LineTokens.Text

/-- A line feed and a carriage return break a line; no other character does. -/
def isBreak (c : Char) : Bool := c == '\n' || c == '\r'

def hasBreak (text : List Char) : Bool := text.any isBreak

def consFirst (c : Char) : List (List Char) → List (List Char)
  | [] => [[c]]
  | line :: lines => (c :: line) :: lines

/-- The pieces between the line terminators, one more than there are terminators. A carriage
return followed by a line feed is one terminator. -/
def splitLines : List Char → List (List Char)
  | [] => [[]]
  | '\r' :: '\n' :: rest => [] :: splitLines rest
  | c :: rest => if isBreak c then [] :: splitLines rest else consFirst c (splitLines rest)

inductive Terminator
  | lineFeed
  | carriageReturn
  | both
deriving DecidableEq, Repr

def Terminator.chars : Terminator → List Char
  | lineFeed => ['\n']
  | carriageReturn => ['\r']
  | both => ['\r', '\n']

def terminators : List Char → List Terminator
  | [] => []
  | '\r' :: '\n' :: rest => .both :: terminators rest
  | '\r' :: rest => .carriageReturn :: terminators rest
  | '\n' :: rest => .lineFeed :: terminators rest
  | _ :: rest => terminators rest

/-- The lines with the terminators put between them, in order. -/
def rejoin : List (List Char) → List Terminator → List Char
  | line :: lines, t :: ts => line ++ t.chars ++ rejoin lines ts
  | lines, [] => lines.flatten
  | [], _ :: _ => []

/-- The lines with a line feed between each two. -/
def joinLines : List (List Char) → List Char
  | [] => []
  | [line] => line
  | line :: next :: lines => line ++ '\n' :: joinLines (next :: lines)

theorem isBreak_iff {c : Char} : isBreak c = true ↔ c = '\n' ∨ c = '\r' := by
  simp [isBreak]

theorem hasBreak_eq_false_iff {text : List Char} :
    hasBreak text = false ↔ '\n' ∉ text ∧ '\r' ∉ text := by
  simp only [hasBreak, List.any_eq_false, isBreak_iff]
  constructor
  · intro h
    exact ⟨fun hm => h _ hm (.inl rfl), fun hm => h _ hm (.inr rfl)⟩
  · rintro ⟨hlf, hcr⟩ c hc (rfl | rfl)
    · exact hlf hc
    · exact hcr hc

theorem splitLines_ne_nil (text : List Char) : splitLines text ≠ [] := by
  fun_cases splitLines text with
  | case1 => simp
  | case2 => simp
  | case3 => simp
  | case4 c rest => cases h : splitLines rest <;> simp [consFirst]

@[simp] theorem joinLines_nil : joinLines [] = [] := rfl

@[simp] theorem joinLines_singleton (line : List Char) : joinLines [line] = line := rfl

@[simp] theorem joinLines_cons_cons (line next : List Char) (lines : List (List Char)) :
    joinLines (line :: next :: lines) = line ++ '\n' :: joinLines (next :: lines) := rfl

end LineTokens.Text
