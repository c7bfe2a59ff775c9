import LineTokens.Legend
import LineTokens.Wire.Codec

/-!
The values that a client and the server exchange: positions and changes on the way in, token data on
the way out. A `character` is a column counted in characters.
-/

namespace LineTokens

open Wire

structure Position where
  line : UInt32
  character : UInt32
deriving DecidableEq, Repr

structure Range where
  start : Position
  stop : Position
deriving DecidableEq, Repr

/-- A range of a document and the text to put in its place. -/
structure ContentChange where
  range : Range
  text : String
deriving DecidableEq, Repr

/-- The answer to a request for all tokens or for a range; only the first has an id. -/
structure SemanticTokens where
  resultId : Option String
  data : List UInt32
deriving DecidableEq, Repr

structure PartialTokens where
  data : List UInt32
deriving DecidableEq, Repr

/-- The words to remove from data delivered before, and those to put in their place. -/
structure TokensEdit where
  start : UInt32
  deleteCount : UInt32
  data : List UInt32
deriving DecidableEq, Repr

structure TokensDelta where
  resultId : String
  edits : List TokensEdit
deriving DecidableEq, Repr

instance : WireRecord Position where
  names := ["line", "character"]
  omitted := []
  toValues p := [toJson p.line, toJson p.character]
  ofValues?
    | [line, character] => return ⟨← required line, ← required character⟩
    | _ => none

instance : WireRecord Range where
  names := ["start", "end"]
  omitted := []
  toValues r := [toJson r.start, toJson r.stop]
  ofValues?
    | [start, stop] => return ⟨← required start, ← required stop⟩
    | _ => none

instance : WireRecord ContentChange where
  names := ["range", "text"]
  omitted := []
  toValues c := [toJson c.range, toJson c.text]
  ofValues?
    | [range, text] => return ⟨← required range, ← required text⟩
    | _ => none

instance : WireRecord SemanticTokens where
  names := ["resultId", "data"]
  omitted := ["resultId"]
  toValues t := [toJson t.resultId, toJson t.data]
  ofValues?
    | [resultId, data] => return ⟨← orDefault none resultId, ← required data⟩
    | _ => none

instance : WireRecord PartialTokens where
  names := ["data"]
  omitted := []
  toValues t := [toJson t.data]
  ofValues?
    | [data] => return ⟨← required data⟩
    | _ => none

instance : WireRecord TokensEdit where
  names := ["start", "deleteCount", "data"]
  omitted := []
  toValues e := [toJson e.start, toJson e.deleteCount, toJson e.data]
  ofValues?
    | [start, deleteCount, data] =>
      return ⟨← required start, ← required deleteCount, ← required data⟩
    | _ => none

instance : WireRecord TokensDelta where
  names := ["resultId", "edits"]
  omitted := []
  toValues d := [toJson d.resultId, toJson d.edits]
  ofValues?
    | [resultId, edits] => return ⟨← required resultId, ← required edits⟩
    | _ => none

instance : WireRecord Legend where
  names := ["tokenTypes", "tokenModifiers"]
  omitted := []
  toValues l := [toJson l.tokenTypes, toJson l.tokenModifiers]
  ofValues?
    | [tokenTypes, tokenModifiers] => return ⟨← required tokenTypes, ← required tokenModifiers⟩
    | _ => none

end LineTokens
