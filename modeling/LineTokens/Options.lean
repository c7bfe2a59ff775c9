import LineTokens.Wire.Codec

/-!
The options that a client may set when it starts a server. Every option has a default.
-/

namespace LineTokens

open Wire

structure AnalyzerOptions where
  threadNamePrefix : String
deriving DecidableEq, Repr

def AnalyzerOptions.default : AnalyzerOptions := ⟨"semcolor-analyzer"⟩

structure ServerOptions where
  analyzer : AnalyzerOptions
  /-- Lines in each batch of a partial answer; zero counts as one. -/
  partialBatchLines : UInt64
  /-- How long a request waits for a running analysis; without it, not at all. -/
  settleTimeoutMs : Option UInt64
deriving DecidableEq, Repr

def ServerOptions.default : ServerOptions := ⟨.default, 1, none⟩

instance : WireRecord AnalyzerOptions where
  names := ["threadNamePrefix"]
  omitted := []
  toValues o := [toJson o.threadNamePrefix]
  ofValues?
    | [threadNamePrefix] => return ⟨← orDefault AnalyzerOptions.default.threadNamePrefix
        threadNamePrefix⟩
    | _ => none

instance : WireRecord ServerOptions where
  names := ["analyzer", "partialBatchLines", "settleTimeoutMs"]
  omitted := []
  toValues o := [toJson o.analyzer, toJson o.partialBatchLines, toJson o.settleTimeoutMs]
  ofValues?
    | [analyzer, partialBatchLines, settleTimeoutMs] => return {
        analyzer := ← orDefault .default analyzer
        partialBatchLines := ← orDefault ServerOptions.default.partialBatchLines partialBatchLines
        settleTimeoutMs := ← orDefault ServerOptions.default.settleTimeoutMs settleTimeoutMs }
    | _ => none

/-- The options that a client's initial value sets; a missing value or null sets none. -/
def ServerOptions.ofInitialValue? : Option Json → Option ServerOptions
  | none => some .default
  | some .null => some .default
  | some json => ofJson? json

/-- Lines in each batch of a partial answer, at least one. -/
def ServerOptions.batchLines (options : ServerOptions) : Nat :=
  max options.partialBatchLines.toNat 1

end LineTokens
