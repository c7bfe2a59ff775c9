/-!
Finite sets of line numbers, kept as their members in ascending order, so that two sets with the
same members are equal and are walked in the order in which lines are analysed.
-/

namespace LineTokens

structure LineSet where
  lines : List Nat
  ascending : lines.Pairwise (· < ·)
deriving DecidableEq

namespace LineSet

instance : Membership Nat LineSet := ⟨fun s line => line ∈ s.lines⟩

instance (line : Nat) (s : LineSet) : Decidable (line ∈ s) :=
  inferInstanceAs (Decidable (line ∈ s.lines))

theorem mem_def {line : Nat} {s : LineSet} : line ∈ s ↔ line ∈ s.lines := Iff.rfl

def empty : LineSet := ⟨[], .nil⟩

instance : EmptyCollection LineSet := ⟨empty⟩

instance : Inhabited LineSet := ⟨empty⟩

def isEmpty (s : LineSet) : Bool := s.lines.isEmpty

def size (s : LineSet) : Nat := s.lines.length

/-- A line put in its place in an ascending list. -/
def insertSorted (line : Nat) : List Nat → List Nat
  | [] => [line]
  | first :: rest =>
    if line < first then line :: first :: rest
    else if line = first then first :: rest
    else first :: insertSorted line rest

theorem mem_insertSorted {x line : Nat} {lines : List Nat} :
    x ∈ insertSorted line lines ↔ x = line ∨ x ∈ lines := by
  induction lines with
  | nil => simp [insertSorted]
  | cons first rest ih =>
    simp only [insertSorted]
    split
    · simp
    · split
      · rename_i h
        subst h
        simp
      · simp only [List.mem_cons, ih]
        exact ⟨fun h => h.elim (fun h => .inr (.inl h)) (·.elim .inl (fun h => .inr (.inr h))),
          fun h => h.elim (fun h => .inr (.inl h)) (·.elim .inl (fun h => .inr (.inr h)))⟩

theorem insertSorted_ascending {line : Nat} {lines : List Nat} (h : lines.Pairwise (· < ·)) :
    (insertSorted line lines).Pairwise (· < ·) := by
  induction lines with
  | nil => simp [insertSorted]
  | cons first rest ih =>
    rw [List.pairwise_cons] at h
    simp only [insertSorted]
    split
    · rename_i hlt
      rw [List.pairwise_cons, List.pairwise_cons]
      refine ⟨fun x hx => ?_, h⟩
      rcases List.mem_cons.mp hx with rfl | hx
      · exact hlt
      · exact Nat.lt_trans hlt (h.1 x hx)
    · split
      · exact List.pairwise_cons.mpr h
      · rw [List.pairwise_cons]
        refine ⟨fun x hx => ?_, ih h.2⟩
        rcases mem_insertSorted.mp hx with rfl | hx
        · omega
        · exact h.1 x hx

def insert (s : LineSet) (line : Nat) : LineSet :=
  ⟨insertSorted line s.lines, insertSorted_ascending s.ascending⟩

def union (s t : LineSet) : LineSet := t.lines.foldl insert s

def ofList (lines : List Nat) : LineSet := lines.foldl insert empty

@[simp] theorem mem_empty {line : Nat} : line ∈ empty ↔ False := by
  simp [mem_def, empty]

@[simp] theorem mem_insert {x line : Nat} {s : LineSet} : x ∈ s.insert line ↔ x = line ∨ x ∈ s :=
  mem_insertSorted

theorem mem_foldl_insert {x : Nat} {lines : List Nat} {s : LineSet} :
    x ∈ lines.foldl insert s ↔ x ∈ s ∨ x ∈ lines := by
  induction lines generalizing s with
  | nil => simp
  | cons first rest ih =>
    rw [List.foldl_cons, ih, mem_insert, List.mem_cons]
    exact ⟨fun h => h.elim (·.elim (fun h => .inr (.inl h)) .inl) (fun h => .inr (.inr h)),
      fun h => h.elim (fun h => .inl (.inr h)) (·.elim (fun h => .inl (.inl h)) .inr)⟩

@[simp] theorem mem_union {x : Nat} {s t : LineSet} : x ∈ s.union t ↔ x ∈ s ∨ x ∈ t :=
  mem_foldl_insert

@[simp] theorem mem_ofList {x : Nat} {lines : List Nat} : x ∈ ofList lines ↔ x ∈ lines := by
  rw [ofList, mem_foldl_insert]
  simp

theorem length_insertSorted_le (line : Nat) (lines : List Nat) :
    (insertSorted line lines).length ≤ lines.length + 1 := by
  induction lines with
  | nil => simp [insertSorted]
  | cons first rest ih =>
    simp only [insertSorted]
    split
    · simp
    · split
      · simp
      · simp only [List.length_cons]
        omega

theorem size_foldl_insert_le (lines : List Nat) (s : LineSet) :
    (lines.foldl insert s).size ≤ s.size + lines.length := by
  induction lines generalizing s with
  | nil => simp
  | cons first rest ih =>
    rw [List.foldl_cons, List.length_cons]
    have hs : (s.insert first).size ≤ s.size + 1 := length_insertSorted_le first s.lines
    have := ih (s.insert first)
    omega

theorem size_union_le (s t : LineSet) : (s.union t).size ≤ s.size + t.size :=
  size_foldl_insert_le t.lines s

end LineSet

end LineTokens
