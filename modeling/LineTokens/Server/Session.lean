import LineTokens.Server.Basic

/-!
Runs of a server: the commands that a client and the holder of the gate give, one after the other,
and the answer to each.
-/

namespace LineTokens

namespace Server

inductive Command
  | didOpen (uri : String) (text : List Char)
  | didChange (uri : String) (changes : List ContentChange)
  | didClose (uri : String)
  | full (uri : String)
  | fullPartial (uri : String)
  | range (uri : String) (range : Range)
  | rangePartial (uri : String) (range : Range)
  | delta (uri previous : String)
  | text (uri : String)
  | documents
  | hold
  | release

inductive Answer
  | error (error : ServerError)
  /-- The version of the text and that of its analysis. -/
  | versions (text analysis : Nat)
  | closed (wasOpen : Bool)
  | tokens (tokens : SemanticTokens)
  | batches (batches : List PartialTokens)
  /-- A partial request has broken off in a sum that overflows. -/
  | overflow
  | delta (answer : DeltaAnswer)
  | text (snapshot : Option Snapshot)
  | uris (uris : List String)
  | gate (gate : Gate)
deriving DecidableEq

namespace Answer

def ofExcept {α : Type} (answer : α → Answer) : Except ServerError α → Answer
  | .error e => error e
  | .ok a => answer a

def ofBatches : Option (List PartialTokens) → Answer
  | none => overflow
  | some answered => batches answered

def ofDocument (document : Document) : Answer :=
  versions document.snapshot.version document.result.version

end Answer

def perform (s : Server) : Command → Server × Answer
  | .didOpen uri text =>
    let (s, outcome) := s.didOpen uri text
    (s, .ofExcept .ofDocument outcome)
  | .didChange uri changes =>
    let (s, outcome) := s.didChange uri changes
    (s, .ofExcept .ofDocument outcome)
  | .didClose uri =>
    let (s, wasOpen) := s.didClose uri
    (s, .closed wasOpen)
  | .full uri => (s, .ofExcept .tokens (s.tokensFull uri))
  | .fullPartial uri => (s, .ofExcept .ofBatches (s.tokensFullPartial uri))
  | .range uri range => (s, .ofExcept .tokens (s.tokensRange uri range))
  | .rangePartial uri range => (s, .ofExcept .ofBatches (s.tokensRangePartial uri range))
  | .delta uri previous =>
    let (s, outcome) := s.tokensDelta uri previous
    (s, .ofExcept .delta outcome)
  | .text uri => (s, .text ((s.documents.get? uri).map Document.snapshot))
  | .documents => (s, .uris s.documents.uris)
  | .hold => (s.hold, .gate .closed)
  | .release => (s.release, .gate .opened)

/-- The server after a run of commands, and the answers in order. -/
def performAll (s : Server) : List Command → Server × List Answer
  | [] => (s, [])
  | command :: rest =>
    let (s, answer) := s.perform command
    let (s, answers) := s.performAll rest
    (s, answer :: answers)

end Server

end LineTokens
