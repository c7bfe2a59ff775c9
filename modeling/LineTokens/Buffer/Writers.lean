import LineTokens.Buffer.TextBuffer

/-!
Several writers at one buffer, in single steps. A call of a writer loads the current cell, builds
the next snapshot and stores it if the cell is still the one loaded; else it starts over. After a
commit it takes the delivery lock, loads the current snapshot, has the observers told of it in
stages, and releases the lock. The steps of different writers may be interleaved in any way.
-/

namespace LineTokens

/-- The place of a current snapshot. Each store makes a new stamp, so that equal snapshots stored
one after the other are told apart. -/
structure Cell where
  stamp : Nat
  snapshot : Snapshot
deriving DecidableEq

/-- How observers take in a change: in stages, each of which changes the state `ω` that they
observe with. Without a first stage there is nobody to tell. -/
structure Observers (ω σ : Type) where
  first : Option σ
  call : Change → σ → ω → ω × Option σ

/-- Where a writer is within a call. After the commit it keeps what it committed itself. -/
inductive WriterPhase (σ : Type)
  | idle
  | loaded (seen : Cell)
  | built (seen : Cell) (next : Change)
  | committed (own : Change)
  | locked (own : Change)
  | telling (own told : Change) (stage : σ)
  | releasing (own : Change)

structure Writer (σ : Type) where
  /-- The batches of the calls to come, that of the running call first. -/
  batches : List (List Edit)
  phase : WriterPhase σ
  /-- The outcomes of the finished calls, in order. -/
  outcomes : List (Except EditError LineSet)

inductive BufferEvent
  | loaded (writer : Nat) (seen : Cell)
  | committed (writer : Nat) (batch : List Edit) (seen stored : Cell) (changed : LineSet)
  | unchanged (writer : Nat) (batch : List Edit) (seen : Cell)
  | refused (writer : Nat) (batch : List Edit) (seen : Cell) (error : EditError)
  | conflict (writer : Nat) (seen found : Cell)
  | told (writer : Nat) (own told : Change)
deriving DecidableEq

structure Writers (ω σ : Type) where
  cell : Cell
  nextStamp : Nat
  /-- The writer that holds the delivery lock. -/
  lock : Option Nat
  writers : List (Writer σ)
  observed : ω
  /-- What has happened, the latest event first. -/
  history : List BufferEvent

namespace Writers

variable {ω σ : Type}

def start (snapshot : Snapshot) (observed : ω) (batches : List (List (List Edit))) :
    Writers ω σ where
  cell := ⟨0, snapshot⟩
  nextStamp := 1
  lock := none
  writers := batches.map (⟨·, .idle, []⟩)
  observed := observed
  history := []

def setPhase (s : Writers ω σ) (i : Nat) (w : Writer σ) (phase : WriterPhase σ) : Writers ω σ :=
  { s with writers := s.writers.set i { w with phase } }

def finish (s : Writers ω σ) (i : Nat) (w : Writer σ) (outcome : Except EditError LineSet) :
    Writers ω σ :=
  { s with writers := s.writers.set i ⟨w.batches.drop 1, .idle, w.outcomes ++ [outcome]⟩ }

def record (s : Writers ω σ) (event : BufferEvent) : Writers ω σ :=
  { s with history := event :: s.history }

/-- Starts a call, or starts it over. -/
def begin (s : Writers ω σ) (i : Nat) (w : Writer σ) : Writers ω σ :=
  (s.setPhase i w (.loaded s.cell)).record (.loaded i s.cell)

def build (s : Writers ω σ) (i : Nat) (w : Writer σ) (batch : List Edit) (seen : Cell) :
    Writers ω σ :=
  match seen.snapshot.apply batch with
  | .error error => (s.finish i w (.error error)).record (.refused i batch seen error)
  | .ok none => (s.finish i w (.ok .empty)).record (.unchanged i batch seen)
  | .ok (some next) => s.setPhase i w (.built seen next)

/-- Stores the snapshot that was built, unless the cell has changed since it was loaded. -/
def store (s : Writers ω σ) (i : Nat) (w : Writer σ) (batch : List Edit) (seen : Cell)
    (next : Change) : Writers ω σ :=
  if s.cell.stamp = seen.stamp then
    let stored : Cell := ⟨s.nextStamp, next.snapshot⟩
    ({ s with cell := stored, nextStamp := s.nextStamp + 1 }.setPhase i w (.committed next)).record
      (.committed i batch seen stored next.changedLines)
  else
    (s.setPhase i w .idle).record (.conflict i seen s.cell)

/-- Takes the delivery lock, if it is free; without observers the call is over instead. -/
def acquire (obs : Observers ω σ) (s : Writers ω σ) (i : Nat) (w : Writer σ) (own : Change) :
    Option (Writers ω σ) :=
  match obs.first with
  | none => some (s.finish i w (.ok own.changedLines))
  | some _ =>
    match s.lock with
    | some _ => none
    | none => some ({ s with lock := some i }.setPhase i w (.locked own))

/-- Loads the snapshot to tell the observers of. -/
def load (obs : Observers ω σ) (s : Writers ω σ) (i : Nat) (w : Writer σ) (own : Change) :
    Writers ω σ :=
  let told : Change := ⟨s.cell.snapshot, own.changedLines⟩
  match obs.first with
  | none => s.setPhase i w (.releasing own)
  | some stage => (s.setPhase i w (.telling own told stage)).record (.told i own told)

def tell (obs : Observers ω σ) (s : Writers ω σ) (i : Nat) (w : Writer σ) (own told : Change)
    (stage : σ) : Writers ω σ :=
  let (observed, next) := obs.call told stage s.observed
  let phase :=
    match next with
    | some stage => .telling own told stage
    | none => .releasing own
  { s with observed }.setPhase i w phase

/-- The next step of a writer; `none` if it has no call left or waits for the lock. -/
def step (obs : Observers ω σ) (s : Writers ω σ) (i : Nat) : Option (Writers ω σ) :=
  match s.writers[i]? with
  | none => none
  | some w =>
    match w.phase, w.batches with
    | .idle, _ :: _ => some (s.begin i w)
    | .loaded seen, batch :: _ => some (s.build i w batch seen)
    | .built seen next, batch :: _ => some (s.store i w batch seen next)
    | .committed own, _ => s.acquire obs i w own
    | .locked own, _ => some (s.load obs i w own)
    | .telling own told stage, _ => some (s.tell obs i w own told stage)
    | .releasing own, _ => some ({ s with lock := none }.finish i w (.ok own.changedLines))
    | _, [] => none

def isDone (s : Writers ω σ) : Bool :=
  s.writers.all fun w =>
    match w.phase with
    | .idle => w.batches.isEmpty
    | _ => false

/-- The states that some interleaving of the writers' steps leads to. -/
inductive Reachable (obs : Observers ω σ) (first : Writers ω σ) : Writers ω σ → Prop
  | start : Reachable obs first first
  | step {s t : Writers ω σ} (i : Nat) (reached : Reachable obs first s)
      (stepped : s.step obs i = some t) : Reachable obs first t

/-- One step of each writer that can make one, in order. -/
def round (obs : Observers ω σ) (s : Writers ω σ) : Writers ω σ :=
  (List.range s.writers.length).foldl (fun s i => (s.step obs i).getD s) s

/-- At most `rounds` rounds, fewer if the writers are done before. -/
def runRounds (obs : Observers ω σ) : Nat → Writers ω σ → Writers ω σ
  | 0, s => s
  | rounds + 1, s => if s.isDone then s else runRounds obs rounds (s.round obs)

def pendingCalls (s : Writers ω σ) : Nat := (s.writers.flatMap (·.batches)).length

def pendingEdits (s : Writers ω σ) : Nat := (s.writers.flatMap (·.batches.flatten)).length

theorem Reachable.round {obs : Observers ω σ} {first s : Writers ω σ}
    (h : Reachable obs first s) : Reachable obs first (s.round obs) := by
  unfold Writers.round
  generalize List.range s.writers.length = indices
  induction indices generalizing s with
  | nil => exact h
  | cons i rest ih =>
    rw [List.foldl_cons]
    cases hs : s.step obs i with
    | none => exact ih h
    | some t => exact ih (.step i h hs)

theorem Reachable.runRounds {obs : Observers ω σ} {first s : Writers ω σ} (rounds : Nat)
    (h : Reachable obs first s) : Reachable obs first (s.runRounds obs rounds) := by
  induction rounds generalizing s with
  | zero => exact h
  | succ rounds ih =>
    unfold Writers.runRounds
    split
    · exact h
    · exact ih h.round

end Writers

/-- Observers that keep a record of what they are told, each in its turn. -/
def recorders (count : Nat) : Observers (List Delivery) Nat where
  first := if count = 0 then none else some 0
  call change observer record :=
    (record ++ [⟨observer, change⟩], if observer + 1 < count then some (observer + 1) else none)

/-- The batches that append texts one by one to a line of a given length. -/
def appendBatches (line length : Nat) : List (List Char) → List (List Edit)
  | [] => []
  | text :: rest => [⟨line, length, 0, text⟩] :: appendBatches line (length + text.length) rest

namespace TextBuffer

/-- Writers that make their calls at a buffer by turns: the buffer afterwards, and what its
observers have been told. A writer starts over at most once for each commit, which takes three
rounds, and a commit keeps the lock for `observerCount + 3` rounds at most. -/
def replaceByTurns (buffer : TextBuffer) (batches : List (List (List Edit))) :
    TextBuffer × List Delivery :=
  let first : Writers (List Delivery) Nat := .start buffer.current [] batches
  let last := first.runRounds (recorders buffer.observerCount)
    ((first.pendingCalls + 1) * (buffer.observerCount + 16))
  ({ buffer with current := last.cell.snapshot }, last.observed)

end TextBuffer

end LineTokens
