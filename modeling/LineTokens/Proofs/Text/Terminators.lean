import LineTokens.Proofs.Text.Joined
import Mathlib.Data.List.Basic

/-! Lines and terminators of a text. Splitting yields one line more than there are terminators, and
the lines with the terminators between them are the text again. Joined lines are the text with a
line feed for each terminator. -/

namespace LineTokens.Text

/-- How often a line feed stands right after a carriage return. -/
def pairCount (text : List Char) : Nat := (text.zip text.tail).count ('\r', '\n')

/-! ### Terminators at the start of a text -/

theorem terminators_cons {c : Char} (h : isBreak c = false) (rest : List Char) :
    terminators (c :: rest) = terminators rest := by
  have hlf : c ≠ '\n' := by
    rintro rfl
    exact absurd h (by decide)
  have hcr : c ≠ '\r' := by
    rintro rfl
    exact absurd h (by decide)
  rw [terminators]
  · rintro rest' rfl
    exact absurd rfl hcr
  · exact hcr
  · exact hlf

/-- A line break that is no start of a pair is a terminator of its own. -/
theorem terminators_break {c : Char} {rest : List Char} (h : isBreak c = true)
    (hsingle : ∀ rest', c = '\r' → rest = '\n' :: rest' → False) :
    ∃ t : Terminator, t.chars = [c] ∧ terminators (c :: rest) = t :: terminators rest := by
  rcases isBreak_iff.mp h with rfl | rfl
  · exact ⟨.lineFeed, rfl, rfl⟩
  · refine ⟨.carriageReturn, rfl, ?_⟩
    rw [terminators]
    intro rest' hrest
    exact hsingle rest' rfl hrest

theorem pairCount_cons {c : Char} {rest : List Char}
    (hsingle : ∀ rest', c = '\r' → rest = '\n' :: rest' → False) :
    pairCount (c :: rest) = pairCount rest := by
  cases rest with
  | nil => rfl
  | cons d rest =>
    have hne : (c, d) ≠ ('\r', '\n') := by
      intro heq
      obtain ⟨rfl, rfl⟩ := Prod.mk.inj heq
      exact hsingle rest rfl rfl
    simp [pairCount, hne]

/-! ### Splitting and putting together -/

theorem length_consFirst {c : Char} {lines : List (List Char)} (h : lines ≠ []) :
    (consFirst c lines).length = lines.length := by
  cases lines with
  | nil => exact absurd rfl h
  | cons line lines => rfl

theorem rejoin_consFirst {c : Char} {lines : List (List Char)} (h : lines ≠ [])
    (ts : List Terminator) : rejoin (consFirst c lines) ts = c :: rejoin lines ts := by
  cases lines with
  | nil => exact absurd rfl h
  | cons line lines => cases ts <;> rfl

theorem length_splitLines (text : List Char) :
    (splitLines text).length = (terminators text).length + 1 := by
  fun_induction splitLines text with
  | case1 => rfl
  | case2 rest ih => simp [terminators, ih]
  | case3 c rest hsingle hbreak ih =>
    obtain ⟨t, -, hterminators⟩ := terminators_break hbreak hsingle
    simp [hterminators, ih]
  | case4 c rest hsingle hbreak ih =>
    rw [length_consFirst (splitLines_ne_nil rest), terminators_cons (by simpa using hbreak), ih]

/-- Putting the terminators back between the lines gives the text. -/
theorem rejoin_splitLines (text : List Char) :
    rejoin (splitLines text) (terminators text) = text := by
  fun_induction splitLines text with
  | case1 => rfl
  | case2 rest ih => simp [terminators, rejoin, Terminator.chars, ih]
  | case3 c rest hsingle hbreak ih =>
    obtain ⟨t, hchars, hterminators⟩ := terminators_break hbreak hsingle
    simp [hterminators, rejoin, hchars, ih]
  | case4 c rest hsingle hbreak ih =>
    rw [rejoin_consFirst (splitLines_ne_nil rest), terminators_cons (by simpa using hbreak), ih]

/-- Every line feed and every carriage return ends a line, those of a pair together. -/
theorem length_splitLines_add_pairCount (text : List Char) :
    (splitLines text).length + pairCount text = text.count '\r' + text.count '\n' + 1 := by
  fun_induction splitLines text with
  | case1 => rfl
  | case2 rest ih =>
    have hpairs : pairCount ('\r' :: '\n' :: rest) = pairCount rest + 1 := by
      have hfeed : pairCount ('\n' :: rest) = pairCount rest :=
        pairCount_cons fun _ hcr _ => absurd hcr (by decide)
      rw [← hfeed]
      simp [pairCount]
    simp [hpairs]
    omega
  | case3 c rest hsingle hbreak ih =>
    rw [pairCount_cons hsingle]
    rcases isBreak_iff.mp hbreak with rfl | rfl
    · simp
      omega
    · simp
      omega
  | case4 c rest hsingle hbreak ih =>
    obtain ⟨hlf, hcr⟩ : c ≠ '\n' ∧ c ≠ '\r' := by simpa [isBreak] using hbreak
    rw [length_consFirst (splitLines_ne_nil rest), pairCount_cons hsingle]
    simpa [hlf, hcr] using ih

/-- Joined lines are the lines with a line feed in each gap. -/
theorem joinLines_eq_rejoin {lines : List (List Char)} {count : Nat}
    (h : lines.length = count + 1) :
    joinLines lines = rejoin lines (List.replicate count .lineFeed) := by
  induction lines generalizing count with
  | nil => simp at h
  | cons line lines ih =>
    cases lines with
    | nil =>
      obtain rfl : count = 0 := by simpa using h.symm
      simp [rejoin]
    | cons next lines =>
      cases count with
      | zero => simp at h
      | succ count =>
        rw [joinLines_cons_cons, List.replicate_succ, rejoin, ih (by simpa using h)]
        simp [Terminator.chars]

/-- Splitting and joining replaces every terminator by a line feed. -/
theorem joinLines_splitLines (text : List Char) :
    joinLines (splitLines text) =
      rejoin (splitLines text) ((terminators text).map fun _ => .lineFeed) := by
  rw [joinLines_eq_rejoin (length_splitLines text), List.map_const']

end LineTokens.Text
