import LineTokens.Analysis.Analyzer
import LineTokens.Text.Display

/-!
A buffer with its analyzer, and a gate in front of the tokenizer. With the gate open, the worker
runs until it waits again before anything else is done. With the gate closed, it stops in each call
of the tokenizer, until it is let go on.
-/

namespace LineTokens

namespace WorkerPhase

/-- A bound on the steps up to the next wait, with `carried` lines to analyse in a new pass. -/
def stepsLeft (carried : Nat) : WorkerPhase → Nat
  | waiting => 0
  | settling _ => 1
  | storingResult .. => 2
  | storingPatch .. => 3
  | checking pass => 2 * pass.left.length + 4
  | calling pass _ _ => 2 * pass.left.length + 5
  | flagged .. => 2 * carried + 5
  | drained _ => 2 * carried + 6

end WorkerPhase

structure Call where
  line : Nat
  text : List Char
deriving DecidableEq, Repr

inductive Gate
  | opened
  | closed
deriving DecidableEq, Repr

namespace Analyzer

/-- A bound on the steps that the worker makes until it waits with an empty queue. -/
def stepsLeft (a : Analyzer) : Nat :=
  a.phase.stepsLeft a.carried.size +
    if a.queue.isEmpty then 0
    else 2 * (a.carried.size + (a.queue.flatMap (·.changedLines.lines)).length) + 7

def runningCall? (a : Analyzer) : Option Call :=
  match a.phase with
  | .calling _ line text => some ⟨line, text⟩
  | _ => none

/-- At most `steps` steps of the worker, fewer if it waits before or, with the gate closed, enters a
call. The calls entered are added to `calls`. -/
def runFor (tokenizer : Tokenizer) (gate : Gate) :
    Nat → Analyzer → List Call → Analyzer × List Call
  | 0, a, calls => (a, calls)
  | steps + 1, a, calls =>
    match a.workerStep tokenizer with
    | none => (a, calls)
    | some a =>
      match a.runningCall? with
      | none => runFor tokenizer gate steps a calls
      | some call =>
        match gate with
        | .opened => runFor tokenizer gate steps a (calls ++ [call])
        | .closed => (a, calls ++ [call])

/-- Runs the worker until it waits or the gate stops it. -/
def run (tokenizer : Tokenizer) (gate : Gate) (a : Analyzer) (calls : List Call) :
    Analyzer × List Call :=
  runFor tokenizer gate a.stepsLeft a calls

def display (a : Analyzer) : String :=
  Text.displayRecord "IncrementalAnalyzer" [
    ("version", toString a.result.version),
    ("snapshot_version", toString a.result.snapshotVersion),
    ("line_count", toString a.result.table.size)]

end Analyzer

structure AnalyzedBuffer where
  buffer : TextBuffer
  analyzer : Analyzer
  gate : Gate
  /-- The calls of the tokenizer that nobody has asked for yet, in order. -/
  calls : List Call

namespace AnalyzedBuffer

def start (gate : Gate) : AnalyzedBuffer := ⟨TextBuffer.empty.subscribe, .start, gate, []⟩

/-- Runs the worker until it waits or the gate stops it. -/
def run (tokenizer : Tokenizer) (b : AnalyzedBuffer) : AnalyzedBuffer :=
  let (analyzer, calls) := b.analyzer.run tokenizer b.gate b.calls
  { b with analyzer, calls }

/-- Tells the analyzer of a change. A worker that the gate has stopped stays where it is. -/
def tell (tokenizer : Tokenizer) (b : AnalyzedBuffer) (change : Change) : AnalyzedBuffer :=
  let told := { b with analyzer := b.analyzer.onChange change }
  match told.analyzer.runningCall? with
  | some _ => told
  | none => told.run tokenizer

def replace (tokenizer : Tokenizer) (b : AnalyzedBuffer) (edits : List Edit) :
    Except EditError (AnalyzedBuffer × Option Change) :=
  match b.buffer.replace edits with
  | .error error => .error error
  | .ok (buffer, none) => .ok ({ b with buffer }, none)
  | .ok (buffer, some change) => .ok ({ b with buffer }.tell tokenizer change, some change)

def hold (b : AnalyzedBuffer) : AnalyzedBuffer := { b with gate := .closed }

/-- Opens the gate and runs the worker until it waits. -/
def release (tokenizer : Tokenizer) (b : AnalyzedBuffer) : AnalyzedBuffer :=
  { b with gate := .opened }.run tokenizer

/-- Lets a stopped call finish and the worker go on to the next stop. -/
def step (tokenizer : Tokenizer) (b : AnalyzedBuffer) : AnalyzedBuffer :=
  match b.analyzer.runningCall? with
  | some _ => { b with gate := .closed }.run tokenizer
  | none => b

def isStopped (b : AnalyzedBuffer) : Bool := b.analyzer.runningCall?.isSome

def takePatch (b : AnalyzedBuffer) : AnalyzedBuffer × Patch :=
  let (analyzer, patch) := b.analyzer.takePatch
  ({ b with analyzer }, patch)

def takeCalls (b : AnalyzedBuffer) : AnalyzedBuffer × List Call := ({ b with calls := [] }, b.calls)

end AnalyzedBuffer

end LineTokens
