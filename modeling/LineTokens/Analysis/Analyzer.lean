import LineTokens.Analysis.Flags
import LineTokens.Analysis.Result
import LineTokens.Buffer.Writers

/-!
The analyzer of a buffer, in single steps. A change to the buffer trips the flag of the pass that
may be running and queues a request. The worker drains the queue, and a pass tokenizes the lines
requested on the newest snapshot, looking at its flag before each of them and at the end. A pass
whose flag is tripped publishes nothing and leaves its lines to the next one. The worker alone
writes the result, the patch, the count of settled requests and what it carries; whoever tells of a
change writes the flags and the count of submitted requests, and adds to the queue.
-/

namespace LineTokens

structure Pass where
  /-- Requests that the pass settles. -/
  consumed : Nat
  flag : Nat
  snapshot : Snapshot
  base : AnalysisResult
  /-- Lines not looked at yet. -/
  left : List Nat
  table : TokenTable
  entries : List PatchEntry

namespace Pass

def start (consumed flag : Nat) (snapshot : Snapshot) (base : AnalysisResult) (lines : LineSet) :
    Pass where
  consumed := consumed
  flag := flag
  snapshot := snapshot
  base := base
  left := lines.lines
  table := base.table.ensureLines snapshot.lineCount
  entries := []

def enter (pass : Pass) (line : Nat) (token : Option Token) : Pass :=
  let replaced := if line < pass.base.table.size then 1 else 0
  { pass with
    table := pass.table.set line token
    entries := pass.entries ++ [⟨line, replaced, token.toList⟩] }

def result (pass : Pass) : AnalysisResult :=
  ⟨pass.base.version + 1, pass.snapshot.version, pass.table⟩

def patch (pass : Pass) : Patch := ⟨pass.base.version + 1, pass.entries⟩

end Pass

/-- Where the worker is. `calling` is the time during which the tokenizer works on a line. -/
inductive WorkerPhase
  | waiting
  | drained (consumed : Nat)
  | flagged (consumed flag : Nat)
  | checking (pass : Pass)
  | calling (pass : Pass) (line : Nat) (text : List Char)
  | storingPatch (consumed : Nat) (result : AnalysisResult) (patch : Patch)
  | storingResult (consumed : Nat) (result : AnalysisResult)
  | settling (consumed : Nat)

structure Analyzer where
  flags : FlagPool
  /-- The flag that the next pass will look at. -/
  activeFlag : Nat
  submitted : Nat
  settled : Nat
  /-- The changes told and not yet drained, in order. -/
  queue : List Change
  result : AnalysisResult
  /-- The patch of the last completed pass, until somebody takes it. -/
  patch : Option Patch
  /-- Lines requested since the last completed pass. -/
  carried : LineSet
  newest : Option Snapshot
  phase : WorkerPhase

/-- What an observer does on a change, one step each. -/
inductive NoticeStage
  | install
  | cancel (previous : Nat)
  | submit
  | send
deriving DecidableEq, Repr

namespace Analyzer

def start : Analyzer where
  flags := FlagPool.empty.make
  activeFlag := 0
  submitted := 0
  settled := 0
  queue := []
  result := .empty
  patch := none
  carried := .empty
  newest := none
  phase := .waiting

/-- One step of taking notice of a change: a fresh flag is installed, the one before is tripped,
the change is counted, and it is queued. -/
def notice (change : Change) (stage : NoticeStage) (a : Analyzer) :
    Analyzer × Option NoticeStage :=
  match stage with
  | .install =>
    ({ a with flags := a.flags.make, activeFlag := a.flags.next }, some (.cancel a.activeFlag))
  | .cancel previous => ({ a with flags := a.flags.trip previous }, some .submit)
  | .submit => ({ a with submitted := a.submitted + 1 }, some .send)
  | .send => ({ a with queue := a.queue ++ [change] }, none)

/-- The analyzer as the one observer of a buffer. -/
def observers : Observers Analyzer NoticeStage := ⟨some .install, notice⟩

def onChange (a : Analyzer) (change : Change) : Analyzer :=
  let previous := a.activeFlag
  let a := (notice change .install a).1
  let a := (notice change (.cancel previous) a).1
  let a := (notice change .submit a).1
  (notice change .send a).1

/-- The later of two snapshots; the first of two equally late ones. -/
def later (seen : Option Snapshot) (snapshot : Snapshot) : Snapshot :=
  match seen with
  | some seen => if snapshot.version ≤ seen.version then seen else snapshot
  | none => snapshot

def drain (a : Analyzer) : Analyzer :=
  { a with
    queue := []
    carried := a.queue.foldl (fun lines request => lines.union request.changedLines) a.carried
    newest := a.queue.foldl (fun seen request => some (later seen request.snapshot)) a.newest
    phase := .drained a.queue.length }

/-- Before the next line, or at the end of the pass: a tripped flag ends it without a result. -/
def check (a : Analyzer) (pass : Pass) : WorkerPhase :=
  if a.flags.isTripped pass.flag then .settling pass.consumed
  else
    match pass.left with
    | [] => .storingPatch pass.consumed pass.result pass.patch
    | line :: left =>
      match pass.snapshot.line? line with
      | none => .checking { pass with left }
      | some text => .calling { pass with left } line text

/-- The worker's next step; `none` if it waits for a request. -/
def workerStep (tokenizer : Tokenizer) (a : Analyzer) : Option Analyzer :=
  match a.phase with
  | .waiting => if a.queue.isEmpty then none else some a.drain
  | .drained consumed => some { a with phase := .flagged consumed a.activeFlag }
  | .flagged consumed flag =>
    match a.newest with
    | none => some { a with phase := .settling consumed }
    | some snapshot =>
      some { a with phase := .checking (.start consumed flag snapshot a.result a.carried) }
  | .checking pass => some { a with phase := a.check pass }
  | .calling pass line text =>
    some { a with phase := .checking (pass.enter line (tokenizer line text)) }
  | .storingPatch consumed result patch =>
    some { a with patch := some patch, phase := .storingResult consumed result }
  | .storingResult consumed result =>
    some { a with result, carried := .empty, phase := .settling consumed }
  | .settling consumed => some { a with settled := a.settled + consumed, phase := .waiting }

/-- Every change counted so far has been settled. -/
def isIdle (a : Analyzer) : Bool := a.submitted ≤ a.settled

/-- The patch that waits to be taken, and the analyzer without it. -/
def swapPatch (a : Analyzer) : Analyzer × Option Patch := ({ a with patch := none }, a.patch)

/-- The patch for a client that found none: empty, with the published version. -/
def emptyPatch (a : Analyzer) : Patch := ⟨a.result.version, []⟩

def takePatch (a : Analyzer) : Analyzer × Patch :=
  match a.swapPatch with
  | (a, some patch) => (a, patch)
  | (a, none) => (a, a.emptyPatch)

end Analyzer

end LineTokens
