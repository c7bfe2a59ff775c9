import LineTokens.Comparison.Parse
import LineTokens.Document
import LineTokens.Encoding.Patch
import LineTokens.Encoding.Range
import LineTokens.Server.Error

/-!
The server: the open documents of a client, what it does on the client's notifications, and what it
answers to requests for tokens. Requests are answered from the last completed pass.
-/

namespace LineTokens

structure Server where
  documents : Registry Document
  options : ServerOptions
  tokenizer : Tokenizer
  /-- Whether the analyzers of documents are held at calls of the tokenizer. -/
  gate : Gate

/-- The answer to a request for a delta. `expected` is set if the client's id is not that of the
version delivered last, and then is that version. -/
structure DeltaAnswer where
  delta : TokensDelta
  expected : Option Nat
deriving DecidableEq, Repr

namespace Server

def start (tokenizer : Tokenizer) (options : ServerOptions) : Server :=
  ⟨.empty, options, tokenizer, .opened⟩

def document (s : Server) (uri : String) : Except ServerError Document :=
  match s.documents.get? uri with
  | some document => .ok document
  | none => .error (.unknownDocument uri)

def put (s : Server) (document : Document) : Server :=
  { s with documents := s.documents.insert document.uri document }

/-- Loads a text into a fresh document, in place of one that is open under the URI. -/
def didOpen (s : Server) (uri : String) (text : List Char) : Server × Except ServerError Document :=
  let created := Document.create uri s.gate
  let s := { s with documents := (s.documents.remove uri).insert uri created }
  match created.replace s.tokenizer (Edit.insertLines 0 (Text.splitLines text)) with
  | .error error => (s, .error (.edit error))
  | .ok (document, _) => (s.put document, .ok document)

/-- Applies all changes as one batch, or none of them. -/
def didChange (s : Server) (uri : String) (changes : List ContentChange) :
    Server × Except ServerError Document :=
  match s.document uri with
  | .error error => (s, .error error)
  | .ok document =>
    match ContentChange.edits changes with
    | .error error => (s, .error error)
    | .ok edits =>
      match document.replace s.tokenizer edits with
      | .error error => (s, .error (.edit error))
      | .ok (document, _) => (s.put document, .ok document)

/-- Closes a document; whether it was open. -/
def didClose (s : Server) (uri : String) : Server × Bool :=
  ({ s with documents := s.documents.remove uri }, s.documents.contains uri)

/-- What is published for a document. A request that waits for a running analysis gives up in the
end, so the wait does not change what is published. -/
def result (s : Server) (uri : String) : Except ServerError AnalysisResult :=
  (s.document uri).map Document.result

def tokensFull (s : Server) (uri : String) : Except ServerError SemanticTokens :=
  (s.result uri).map fun result =>
    ⟨some (toString result.version), Encoding.encodeFull result.table⟩

/-- The batches of all lines; `none` if the request breaks off in a sum that overflows. -/
def tokensFullPartial (s : Server) (uri : String) :
    Except ServerError (Option (List PartialTokens)) :=
  (s.result uri).map fun result =>
    (Encoding.encodeBatches? result.table 0 result.table.size s.options.batchLines).map
      (·.map (⟨·⟩))

def tokensRange (s : Server) (uri : String) (range : Range) : Except ServerError SemanticTokens :=
  (s.result uri).map fun result =>
    ⟨none, Encoding.encodeRange result.table range.start.line.toNat range.stop.line.toNat⟩

/-- The batches of a range; `none` if the request breaks off in a sum that overflows. -/
def tokensRangePartial (s : Server) (uri : String) (range : Range) :
    Except ServerError (Option (List PartialTokens)) :=
  (s.result uri).map fun result =>
    let (start, stop) := Encoding.rangeLines range.start.line.toNat range.stop.line.toNat
      result.table.size
    (Encoding.encodeBatches? result.table start stop s.options.batchLines).map (·.map (⟨·⟩))

/-- The version that a patch applies to; an empty one changes nothing. -/
def patchBase (patch : Patch) : Nat :=
  if patch.isEmpty then patch.version else patch.version - 1

/-- What a client with an id gets for a patch. If it has the patch's version already, it gets no
edits. -/
def deltaAnswer (patch : Patch) (previous : String) : DeltaAnswer :=
  if previous = toString patch.version then ⟨⟨toString patch.version, []⟩, none⟩
  else
    let base := patchBase patch
    ⟨Encoding.encodePatch patch, if previous = toString base then none else some base⟩

/-- Takes the document's patch and answers with it. -/
def tokensDelta (s : Server) (uri previous : String) : Server × Except ServerError DeltaAnswer :=
  match s.document uri with
  | .error error => (s, .error error)
  | .ok document =>
    let (document, patch) := document.takePatch
    (s.put document, .ok (deltaAnswer patch previous))

def hold (s : Server) : Server :=
  { s with
    gate := .closed
    documents := s.documents.map fun d => { d with content := d.content.hold } }

def release (s : Server) : Server :=
  { s with
    gate := .opened
    documents := s.documents.map fun d => { d with content := d.content.release s.tokenizer } }

/-- What the server tells a client that it can do. The kind of synchronization in which changes are
sent as edits has number 2. -/
def capabilities : Json :=
  .obj [
    ("positionEncoding", .str "utf-32"),
    ("textDocumentSync", .obj [("openClose", .bool true), ("change", .int 2)]),
    ("semanticTokensProvider", .obj [
      ("legend", Wire.toJson Legend.standard),
      ("full", .obj [("delta", .bool true)]),
      ("range", .bool true)])]

def display (s : Server) : String :=
  Text.displayRecord "SemanticTokensServer" [
    ("documents", s.documents.display s.options.analyzer),
    ("options", s.options.display)]

end Server

end LineTokens
