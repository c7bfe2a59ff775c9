import LineTokens.Analysis.Gate

/-!
Several writers at an analyzed buffer, with the worker and a client that takes patches, in single
steps. Any of them may make its next step at any time; a writer tells the analyzer of a change in
the four steps of `NoticeStage`, and the client takes a patch in two.
-/

namespace LineTokens

/-- A client that found no patch has still to look up the published version. -/
inductive ClientPhase
  | ready
  | missed
deriving DecidableEq, Repr

structure Concurrent where
  writers : Writers Analyzer NoticeStage
  client : ClientPhase
  taken : List Patch

inductive Actor
  | writer (index : Nat)
  | worker
  | client
deriving DecidableEq, Repr

namespace Concurrent

def start (snapshot : Snapshot) (analyzer : Analyzer) (batches : List (List (List Edit))) :
    Concurrent := ⟨.start snapshot analyzer batches, .ready, []⟩

def analyzer (c : Concurrent) : Analyzer := c.writers.observed

def withAnalyzer (c : Concurrent) (analyzer : Analyzer) : Concurrent :=
  { c with writers := { c.writers with observed := analyzer } }

def clientStep (c : Concurrent) : Concurrent :=
  match c.client with
  | .ready =>
    match c.analyzer.swapPatch with
    | (analyzer, some patch) =>
      { c.withAnalyzer analyzer with taken := c.taken ++ [patch] }
    | (analyzer, none) => { c.withAnalyzer analyzer with client := .missed }
  | .missed => { c with client := .ready, taken := c.taken ++ [c.analyzer.emptyPatch] }

/-- The next step of one of those involved; `none` if it can make none. -/
def step (tokenizer : Tokenizer) (c : Concurrent) : Actor → Option Concurrent
  | .writer i => (c.writers.step Analyzer.observers i).map fun writers => { c with writers }
  | .worker => (c.analyzer.workerStep tokenizer).map c.withAnalyzer
  | .client => some c.clientStep

/-- The states that some interleaving of steps leads to. -/
inductive Reachable (tokenizer : Tokenizer) (first : Concurrent) : Concurrent → Prop
  | start : Reachable tokenizer first first
  | step {c d : Concurrent} (actor : Actor) (reached : Reachable tokenizer first c)
      (stepped : c.step tokenizer actor = some d) : Reachable tokenizer first d

/-- One step of the worker after one of each writer. -/
def round (tokenizer : Tokenizer) (c : Concurrent) : Concurrent :=
  let c := { c with writers := c.writers.round Analyzer.observers }
  (c.step tokenizer .worker).getD c

/-- The writers are done and the worker has nothing to do. -/
def isDone (tokenizer : Tokenizer) (c : Concurrent) : Bool :=
  c.writers.isDone && (c.analyzer.workerStep tokenizer).isNone

/-- At most `rounds` rounds, fewer if all is done before. -/
def runRounds (tokenizer : Tokenizer) : Nat → Concurrent → Concurrent
  | 0, c => c
  | rounds + 1, c =>
    if c.isDone tokenizer then c else runRounds tokenizer rounds (c.round tokenizer)

end Concurrent

namespace AnalyzedBuffer

/-- Writers that make their calls by turns with each other and with the worker. There are at most
as many passes as calls, after the one under way, and a pass has no more lines than were edited. -/
def replaceByTurns (tokenizer : Tokenizer) (b : AnalyzedBuffer)
    (batches : List (List (List Edit))) : AnalyzedBuffer :=
  let first := Concurrent.start b.buffer.current b.analyzer batches
  let last := first.runRounds tokenizer
    ((first.writers.pendingCalls + 1) *
      (2 * (b.analyzer.carried.size + first.writers.pendingEdits) + 32) + b.analyzer.stepsLeft)
  { b with
    buffer := { b.buffer with current := last.writers.cell.snapshot }
    analyzer := last.analyzer }

end AnalyzedBuffer

end LineTokens
