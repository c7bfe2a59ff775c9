/-!
Registries: values kept under URIs, at most one under each.
-/

namespace LineTokens

structure Registry (α : Type) where
  entries : List (String × α)

namespace Registry

variable {α : Type}

def empty : Registry α := ⟨[]⟩

def size (r : Registry α) : Nat := r.entries.length

def isEmpty (r : Registry α) : Bool := r.entries.isEmpty

def get? (r : Registry α) (uri : String) : Option α := r.entries.lookup uri

def contains (r : Registry α) (uri : String) : Bool := (r.get? uri).isSome

/-- The registry with nothing under a URI. -/
def remove (r : Registry α) (uri : String) : Registry α :=
  ⟨r.entries.filter fun entry => entry.1 != uri⟩

/-- The registry with a value under a URI, in place of the one that was there. -/
def insert (r : Registry α) (uri : String) (value : α) : Registry α :=
  ⟨(r.remove uri).entries ++ [(uri, value)]⟩

/-- The value under a URI; if there is none, `fresh` is put there first. -/
def getOrCreate (r : Registry α) (uri : String) (fresh : α) : Registry α × α :=
  match r.get? uri with
  | some value => (r, value)
  | none => (r.insert uri fresh, fresh)

def map (f : α → α) (r : Registry α) : Registry α :=
  ⟨r.entries.map fun (uri, value) => (uri, f value)⟩

/-- The URIs in the order of their code points. -/
def uris (r : Registry α) : List String := (r.entries.map Prod.fst).mergeSort (· ≤ ·)

theorem lookup_filter_self (entries : List (String × α)) (uri : String) :
    (entries.filter fun entry => entry.1 != uri).lookup uri = none := by
  induction entries with
  | nil => rfl
  | cons entry rest ih =>
    by_cases h : entry.1 = uri
    · rw [List.filter_cons_of_neg (by simp [h]), ih]
    · rw [List.filter_cons_of_pos (by simp [h]), List.lookup_cons, ih]
      have hne : (uri == entry.1) = false := by simp [Ne.symm h]
      rw [hne]

theorem lookup_filter_of_ne (entries : List (String × α)) {uri other : String} (h : other ≠ uri) :
    (entries.filter fun entry => entry.1 != uri).lookup other = entries.lookup other := by
  induction entries with
  | nil => rfl
  | cons entry rest ih =>
    by_cases hn : entry.1 = uri
    · have hne : (other == entry.1) = false := by simp [hn, h]
      rw [List.filter_cons_of_neg (by simp [hn]), ih, List.lookup_cons, hne]
    · rw [List.filter_cons_of_pos (by simp [hn]), List.lookup_cons, List.lookup_cons, ih]

@[simp] theorem get?_remove_self (r : Registry α) (uri : String) : (r.remove uri).get? uri = none :=
  lookup_filter_self r.entries uri

theorem get?_remove_of_ne (r : Registry α) {uri other : String} (h : other ≠ uri) :
    (r.remove uri).get? other = r.get? other :=
  lookup_filter_of_ne r.entries h

@[simp] theorem get?_insert_self (r : Registry α) (uri : String) (value : α) :
    (r.insert uri value).get? uri = some value := by
  have hremoved : (r.remove uri).entries.lookup uri = none := r.get?_remove_self uri
  rw [get?, insert, List.lookup_append, hremoved]
  simp

theorem get?_insert_of_ne (r : Registry α) {uri other : String} (value : α) (h : other ≠ uri) :
    (r.insert uri value).get? other = r.get? other := by
  have hremoved : (r.remove uri).entries.lookup other = r.entries.lookup other :=
    r.get?_remove_of_ne h
  have hne : (other == uri) = false := by simp [h]
  rw [get?, get?, insert, List.lookup_append, hremoved, List.lookup_cons, hne]
  simp

theorem get?_map (r : Registry α) (f : α → α) (uri : String) :
    (r.map f).get? uri = (r.get? uri).map f := by
  obtain ⟨entries⟩ := r
  induction entries with
  | nil => rfl
  | cons entry rest ih =>
    obtain ⟨key, value⟩ := entry
    simp only [get?, map, List.map_cons] at ih ⊢
    rw [List.lookup_cons, List.lookup_cons, ih]
    cases uri == key <;> rfl

end Registry

end LineTokens
