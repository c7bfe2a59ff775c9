import LineTokens.Token

/-!
The token table: one slot per document line, holding the line's token if it has one. It grows when
lines are appended and never shrinks. Slots are stored in chunks of 256, of which only the last may
be shorter; `slots` is the flat list that the chunks stand for.
-/

namespace LineTokens

def chunkLines : Nat := 256

structure TokenTable where
  chunks : List (List (Option Token))
  size : Nat
deriving DecidableEq, Repr

namespace TokenTable

def empty : TokenTable := ⟨[], 0⟩

instance : Inhabited TokenTable := ⟨empty⟩

def isEmpty (table : TokenTable) : Bool := table.size == 0

/-- Every slot, in line order. -/
def slots (table : TokenTable) : List (Option Token) := table.chunks.flatten

/-- Token of a line, if the line exists and has one. -/
def get? (table : TokenTable) (line : Nat) : Option Token :=
  match table.chunks[line / chunkLines]? with
  | none => none
  | some chunk => (chunk[line % chunkLines]?).join

def tokens (table : TokenTable) : List Token := table.slots.filterMap id

/-- The tokens present on the lines from `start` up to `stop`; lines past the end have none. -/
def tokensIn (table : TokenTable) (start stop : Nat) : List Token :=
  (List.range' start (min stop table.size - start)).filterMap table.get?

/-- One round of growth towards `count` slots: a chunk is opened if the last one is full, and the
last chunk gets as many empty slots as it has room for and as are wanted. -/
def growOnce (table : TokenTable) (count : Nat) : TokenTable :=
  let chunks := if table.size % chunkLines = 0 then table.chunks ++ [[]] else table.chunks
  match chunks.getLast? with
  | none => table
  | some last =>
    let added := min (chunkLines - last.length) (count - table.size)
    ⟨chunks.dropLast ++ [last ++ List.replicate added none], table.size + added⟩

/-- At most `rounds` rounds of growth, fewer if `count` slots are there before. -/
def growFor : Nat → TokenTable → Nat → TokenTable
  | 0, table, _ => table
  | rounds + 1, table, count =>
    if table.size < count then growFor rounds (table.growOnce count) count else table

/-- The table with at least `count` slots. Each round adds a slot, so there are never more rounds
than slots missing. -/
def ensureLines (table : TokenTable) (count : Nat) : TokenTable :=
  growFor (count - table.size) table count

/-- The table with `token` in the slot of `line`, grown if it has no such slot. -/
def set (table : TokenTable) (line : Nat) (token : Option Token) : TokenTable :=
  let grown := table.ensureLines (line + 1)
  { grown with
    chunks := grown.chunks.modify (line / chunkLines) (·.set (line % chunkLines) token) }

/-- The table that has been given `slots` from line `line` on. -/
def setFrom : TokenTable → Nat → List (Option Token) → TokenTable
  | table, _, [] => table
  | table, line, slot :: rest => setFrom (table.set line slot) (line + 1) rest

def ofSlots (slots : List (Option Token)) : TokenTable := empty.setFrom 0 slots

/-- Every chunk but the last is full, no chunk is empty, and `size` counts the slots. -/
structure Canonical (table : TokenTable) : Prop where
  full : ∀ chunk ∈ table.chunks.dropLast, chunk.length = chunkLines
  nonempty : ∀ chunk ∈ table.chunks, 0 < chunk.length ∧ chunk.length ≤ chunkLines
  size_eq : table.size = table.slots.length

theorem canonical_empty : empty.Canonical := ⟨by simp [empty], by simp [empty], rfl⟩

theorem ensureLines_of_le {table : TokenTable} {count : Nat} (h : count ≤ table.size) :
    table.ensureLines count = table := by
  rw [ensureLines, Nat.sub_eq_zero_of_le h, growFor]

end TokenTable

end LineTokens
