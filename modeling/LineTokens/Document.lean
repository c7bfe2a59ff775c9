import LineTokens.Analysis.Concurrent
import LineTokens.Options
import LineTokens.Registry
import LineTokens.Text.Quoted

/-!
Documents: a URI, and the buffer that holds the text with the analyzer that follows it.
-/

namespace LineTokens

structure Document where
  uri : String
  content : AnalyzedBuffer

namespace Document

/-- A document without lines. -/
def create (uri : String) (gate : Gate) : Document := ⟨uri, .start gate⟩

def snapshot (d : Document) : Snapshot := d.content.buffer.current

def result (d : Document) : AnalysisResult := d.content.analyzer.result

def replace (tokenizer : Tokenizer) (d : Document) (edits : List Edit) :
    Except EditError (Document × Option Change) :=
  match d.content.replace tokenizer edits with
  | .error error => .error error
  | .ok (content, change) => .ok ({ d with content }, change)

def takePatch (d : Document) : Document × Patch :=
  let (content, patch) := d.content.takePatch
  ({ d with content }, patch)

def display (d : Document) : String :=
  Text.displayRecord "Document" [
    ("uri", Text.quoted d.uri),
    ("buffer", d.content.buffer.display),
    ("analyzer", d.content.analyzer.display)]

end Document

def AnalyzerOptions.display (options : AnalyzerOptions) : String :=
  Text.displayRecord "AnalyzerOptions" [
    ("thread_name_prefix", Text.quoted options.threadNamePrefix)]

/-- A registry of documents, displayed with the options of their analyzers. -/
def Registry.display {α : Type} (r : Registry α) (options : AnalyzerOptions) : String :=
  Text.displayRecord "DocumentRegistry" [
    ("document_count", toString r.size),
    ("options", options.display)]

def ServerOptions.display (options : ServerOptions) : String :=
  Text.displayRecord "ServerOptions" [
    ("analyzer", options.analyzer.display),
    ("partial_batch_lines", toString options.partialBatchLines),
    ("settle_timeout_ms", Text.displayOption (options.settleTimeoutMs.map toString))]

end LineTokens
