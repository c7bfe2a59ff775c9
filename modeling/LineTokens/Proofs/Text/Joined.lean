import LineTokens.Text.Flat
import Mathlib.Data.List.Basic

/-! Joined lines: a flat text as the lines before one line, each with the line feed that ends it,
the line itself, and the lines after it, each with the line feed that starts it. The offsets of a
line follow from this form, and so does that splitting joined lines gives the lines back. -/

namespace LineTokens.Text

/-- The lines, each followed by a line feed. -/
def endLines (lines : List (List Char)) : List Char := lines.flatMap (· ++ ['\n'])

/-- The lines, each after a line feed. -/
def startLines (lines : List (List Char)) : List Char := lines.flatMap ('\n' :: ·)

@[simp] theorem endLines_nil : endLines [] = [] := rfl

@[simp] theorem startLines_nil : startLines [] = [] := rfl

@[simp] theorem endLines_cons (line : List Char) (lines : List (List Char)) :
    endLines (line :: lines) = line ++ '\n' :: endLines lines := by
  simp [endLines]

@[simp] theorem startLines_cons (line : List Char) (lines : List (List Char)) :
    startLines (line :: lines) = '\n' :: line ++ startLines lines := by
  simp [startLines]

theorem joinLines_cons (line : List Char) (lines : List (List Char)) :
    joinLines (line :: lines) = line ++ startLines lines := by
  induction lines generalizing line with
  | nil => simp
  | cons next lines ih => rw [joinLines_cons_cons, ih, startLines_cons, List.cons_append]

theorem joinLines_eq_append (before after : List (List Char)) (line : List Char) :
    joinLines (before ++ line :: after) = endLines before ++ line ++ startLines after := by
  induction before with
  | nil => simp [joinLines_cons]
  | cons first before ih =>
    cases before with
    | nil => simp [joinLines_cons]
    | cons second before =>
      rw [List.cons_append, List.cons_append, joinLines_cons_cons, ← List.cons_append, ih]
      simp

/-- The text of the lines with one more line at the end. -/
theorem joinLines_concat (lines : List (List Char)) (line : List Char) :
    joinLines (lines ++ [line]) =
      if lines.length = 0 then joinLines lines ++ line else joinLines lines ++ '\n' :: line := by
  rcases List.eq_nil_or_concat lines with rfl | ⟨before, last, rfl⟩
  · simp
  · rw [if_neg (by simp), List.concat_eq_append, joinLines_eq_append, joinLines_eq_append]
    simp [endLines]

end LineTokens.Text

namespace LineTokens.FlatText

open Text

theorem lineStart_succ_append {line : List Char} (h : '\n' ∉ line) (rest : FlatText) (k : Nat) :
    lineStart (line ++ '\n' :: rest) (k + 1) = line.length + 1 + lineStart rest k := by
  induction line with
  | nil => simp [lineStart]; omega
  | cons c line ih =>
    obtain ⟨hc, hline⟩ : '\n' ≠ c ∧ '\n' ∉ line := by simpa using h
    rw [List.cons_append, lineStart, if_neg (Ne.symm hc), ih hline, List.length_cons]
    omega

/-- Past lines without a line feed, line starts are those of the rest. -/
theorem lineStart_endLines {before : List (List Char)} (h : ∀ line ∈ before, '\n' ∉ line)
    (rest : FlatText) (k : Nat) :
    lineStart (endLines before ++ rest) (before.length + k) =
      (endLines before).length + lineStart rest k := by
  induction before with
  | nil => simp
  | cons line before ih =>
    rw [endLines_cons, List.append_assoc, List.cons_append, List.length_cons,
      Nat.add_right_comm, lineStart_succ_append (h line (by simp)),
      ih fun l hl => h l (by simp [hl])]
    simp
    omega

/-- Where a line starts and stops in joined lines. -/
theorem lineBounds?_joinLines {before after : List (List Char)} {line : List Char}
    (h : ∀ l ∈ before ++ line :: after, '\n' ∉ l) :
    lineStart (joinLines (before ++ line :: after)) before.length = (endLines before).length ∧
      (after ≠ [] → lineStart (joinLines (before ++ line :: after)) (before.length + 1) =
        (endLines before).length + line.length + 1) := by
  have hBefore : ∀ l ∈ before, '\n' ∉ l := fun l hl => h l (by simp [hl])
  rw [joinLines_eq_append, List.append_assoc]
  constructor
  · simpa using lineStart_endLines hBefore (line ++ startLines after) 0
  · intro hne
    obtain ⟨next, after, rfl⟩ := List.exists_cons_of_ne_nil hne
    rw [lineStart_endLines hBefore, startLines_cons, List.cons_append,
      lineStart_succ_append (h line (by simp)), lineStart_zero]
    omega

end LineTokens.FlatText

namespace LineTokens.Text

/-! ### Splitting -/

theorem splitLines_cons {c : Char} (h : isBreak c = false) (rest : List Char) :
    splitLines (c :: rest) = consFirst c (splitLines rest) := by
  have hcr : c ≠ '\r' := by
    rintro rfl
    exact absurd h (by decide)
  rw [splitLines]
  · simp [h]
  · rintro rest' rfl -
    exact hcr rfl

theorem splitLines_append {line : List Char} (h : hasBreak line = false) (rest : List Char) :
    splitLines (line ++ '\n' :: rest) = line :: splitLines rest := by
  induction line with
  | nil =>
    rw [List.nil_append, splitLines]
    · simp [isBreak]
    · intro rest' hc
      exact absurd hc (by decide)
  | cons c line ih =>
    obtain ⟨hc, hline⟩ : isBreak c = false ∧ hasBreak line = false := by
      simpa [hasBreak] using h
    rw [List.cons_append, splitLines_cons hc, ih hline, consFirst]

theorem splitLines_of_unbroken {line : List Char} (h : hasBreak line = false) :
    splitLines line = [line] := by
  induction line with
  | nil => rfl
  | cons c line ih =>
    obtain ⟨hc, hline⟩ : isBreak c = false ∧ hasBreak line = false := by
      simpa [hasBreak] using h
    rw [splitLines_cons hc, ih hline, consFirst]

/-- Splitting joined lines gives the lines back, provided that there are any. -/
theorem splitLines_joinLines {lines : List (List Char)} (hne : lines ≠ [])
    (h : ∀ line ∈ lines, hasBreak line = false) : splitLines (joinLines lines) = lines := by
  induction lines with
  | nil => exact absurd rfl hne
  | cons line lines ih =>
    cases lines with
    | nil => exact splitLines_of_unbroken (h line (by simp))
    | cons next lines =>
      rw [joinLines_cons_cons, splitLines_append (h line (by simp)),
        ih (by simp) fun l hl => h l (by simp [hl])]

theorem mem_consFirst {c : Char} {line : List Char} {lines : List (List Char)}
    (h : line ∈ consFirst c lines) :
    line = [c] ∨ line ∈ lines ∨ ∃ first ∈ lines, line = c :: first := by
  cases lines with
  | nil => exact .inl (by simpa [consFirst] using h)
  | cons first lines =>
    rcases List.mem_cons.mp h with rfl | h
    · exact .inr (.inr ⟨first, by simp, rfl⟩)
    · exact .inr (.inl (List.mem_cons_of_mem _ h))

/-- No line that splitting yields has a line break. -/
theorem hasBreak_of_mem_splitLines {text line : List Char} (h : line ∈ splitLines text) :
    hasBreak line = false := by
  fun_induction splitLines text generalizing line with
  | case1 =>
    obtain rfl : line = [] := by simpa using h
    rfl
  | case2 rest ih =>
    rcases List.mem_cons.mp h with rfl | h
    · rfl
    · exact ih h
  | case3 c rest hother hbreak ih =>
    rcases List.mem_cons.mp h with rfl | h
    · rfl
    · exact ih h
  | case4 c rest hother hbreak ih =>
    have hc : isBreak c = false := by simpa using hbreak
    rcases mem_consFirst h with rfl | h | ⟨first, hfirst, rfl⟩
    · simp [hasBreak, hc]
    · exact ih h
    · have := ih hfirst
      simp only [hasBreak, List.any_cons, hc, Bool.false_or] at this ⊢
      exact this

end LineTokens.Text
