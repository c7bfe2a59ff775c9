import LineTokens.Options
import LineTokens.Proofs.Wire.Forms
import LineTokens.Wire.Messages

/-! What a client and a server exchange, and the options, survive being written and read: each value
is read back from every form that it has. -/

namespace LineTokens

open Wire WireForms WireRecord RecordForms

instance : RecordForms Position where
  fields p := [Form p.line, Form p.character]
  form_toValues p := .cons (form_toJson p.line) (.cons (form_toJson p.character) .nil)
  read := by
    rintro p _ (_ | ⟨hline, _ | ⟨hcharacter, _ | _⟩⟩)
    simp [ofValues?, required_of_form hline, required_of_form hcharacter]
  omit_null := ofValues?_foundValues rfl

instance : RecordForms Range where
  fields r := [Form r.start, Form r.stop]
  form_toValues r := .cons (form_toJson r.start) (.cons (form_toJson r.stop) .nil)
  read := by
    rintro r _ (_ | ⟨hstart, _ | ⟨hstop, _ | _⟩⟩)
    simp [ofValues?, required_of_form hstart, required_of_form hstop]
  omit_null := ofValues?_foundValues rfl

instance : RecordForms ContentChange where
  fields c := [Form c.range, Form c.text]
  form_toValues c := .cons (form_toJson c.range) (.cons (form_toJson c.text) .nil)
  read := by
    rintro c _ (_ | ⟨hrange, _ | ⟨htext, _ | _⟩⟩)
    simp [ofValues?, required_of_form hrange, required_of_form htext]
  omit_null := ofValues?_foundValues rfl

instance : RecordForms SemanticTokens where
  fields t := [Form t.resultId, Form t.data]
  form_toValues t := .cons (form_toJson t.resultId) (.cons (form_toJson t.data) .nil)
  read := by
    rintro t _ (_ | ⟨hresultId, _ | ⟨hdata, _ | _⟩⟩)
    simp [ofValues?, orDefault_of_form hresultId, required_of_form hdata]
  omit_null := by
    intro values hlength
    match values, hlength with
    | [resultId, data], _ =>
      have hresultId : keeps SemanticTokens "resultId" resultId = !resultId.isNull := by
        simp [keeps, omitted]
      have hdata : keeps SemanticTokens "data" data = true := by simp [keeps, omitted]
      simp only [foundValues, names, List.zipWith_cons_cons, List.zipWith_nil_left, hresultId,
        hdata]
      cases resultId <;> rfl

instance : RecordForms PartialTokens where
  fields t := [Form t.data]
  form_toValues t := .cons (form_toJson t.data) .nil
  read := by
    rintro t _ (_ | ⟨hdata, _ | _⟩)
    simp [ofValues?, required_of_form hdata]
  omit_null := ofValues?_foundValues rfl

instance : RecordForms TokensEdit where
  fields e := [Form e.start, Form e.deleteCount, Form e.data]
  form_toValues e :=
    .cons (form_toJson e.start)
      (.cons (form_toJson e.deleteCount) (.cons (form_toJson e.data) .nil))
  read := by
    rintro e _ (_ | ⟨hstart, _ | ⟨hdeleteCount, _ | ⟨hdata, _ | _⟩⟩⟩)
    simp [ofValues?, required_of_form hstart, required_of_form hdeleteCount, required_of_form hdata]
  omit_null := ofValues?_foundValues rfl

instance : RecordForms TokensDelta where
  fields d := [Form d.resultId, Form d.edits]
  form_toValues d := .cons (form_toJson d.resultId) (.cons (form_toJson d.edits) .nil)
  read := by
    rintro d _ (_ | ⟨hresultId, _ | ⟨hedits, _ | _⟩⟩)
    simp [ofValues?, required_of_form hresultId, required_of_form hedits]
  omit_null := ofValues?_foundValues rfl

instance : RecordForms Legend where
  fields l := [Form l.tokenTypes, Form l.tokenModifiers]
  form_toValues l := .cons (form_toJson l.tokenTypes) (.cons (form_toJson l.tokenModifiers) .nil)
  read := by
    rintro l _ (_ | ⟨htokenTypes, _ | ⟨htokenModifiers, _ | _⟩⟩)
    simp [ofValues?, required_of_form htokenTypes, required_of_form htokenModifiers]
  omit_null := ofValues?_foundValues rfl

instance : RecordForms AnalyzerOptions where
  fields o := [Form o.threadNamePrefix]
  form_toValues o := .cons (form_toJson o.threadNamePrefix) .nil
  read := by
    rintro o _ (_ | ⟨hthreadNamePrefix, _ | _⟩)
    simp [ofValues?, orDefault_of_form hthreadNamePrefix]
  omit_null := ofValues?_foundValues rfl

instance : RecordForms ServerOptions where
  fields o := [Form o.analyzer, Form o.partialBatchLines, Form o.settleTimeoutMs]
  form_toValues o :=
    .cons (form_toJson o.analyzer)
      (.cons (form_toJson o.partialBatchLines) (.cons (form_toJson o.settleTimeoutMs) .nil))
  read := by
    rintro o _ (_ | ⟨hanalyzer, _ | ⟨hpartialBatchLines, _ | ⟨hsettleTimeoutMs, _ | _⟩⟩⟩)
    simp [ofValues?, orDefault_of_form hanalyzer, orDefault_of_form hpartialBatchLines,
      orDefault_of_form hsettleTimeoutMs]
  omit_null := ofValues?_foundValues rfl

/-- A type whose values are read back from what is written for them, from the array of their field
values and from all other forms; so a value that was read survives being written and read again. -/
structure Survives (α : Type) [WireRecord α] [RecordForms α] : Prop where
  object : ∀ a : α, ofJson? (toJson a) = some a
  array : ∀ a : α, ofJson? (toArray a) = some a
  forms : ∀ (a : α) (json : Json), Form a json → ofJson? json = some a
  again : ∀ (json : Json) (a : α), ofJson? json = some a → ofJson? (toJson a) = some a

theorem form_toArray {α : Type} [WireRecord α] [RecordForms α] (a : α) : Form a (toArray a) :=
  ⟨toValues a, form_toValues a, .inr rfl⟩

theorem survives (α : Type) [WireRecord α] [RecordForms α] : Survives α where
  object a := ofJson?_of_form (form_toJson a)
  array a := ofJson?_of_form (form_toArray a)
  forms _ _ := ofJson?_of_form
  again _ a _ := ofJson?_of_form (form_toJson a)

theorem wire_values_survive :
    Survives Position ∧ Survives Range ∧ Survives ContentChange ∧ Survives SemanticTokens ∧
      Survives PartialTokens ∧ Survives TokensEdit ∧ Survives TokensDelta ∧ Survives Legend ∧
      Survives AnalyzerOptions ∧ Survives ServerOptions :=
  ⟨survives _, survives _, survives _, survives _, survives _, survives _, survives _, survives _,
    survives _, survives _⟩

/-- A delta as an array, with one edit as an array and one as an object. -/
theorem wire_values_survive_mixed_forms :
    let delta : TokensDelta := ⟨"7", [⟨5, 5, [1, 4]⟩, ⟨15, 0, []⟩]⟩
    let json : Json := .arr [.str "7", .arr [.arr [.int 5, .int 5, .arr [.int 1, .int 4]],
      .obj [("start", .int 15), ("deleteCount", .int 0), ("data", .arr [])]]]
    Form delta json ∧ ofJson? json = some delta := by
  intro delta json
  have hfirst : Form (⟨5, 5, [1, 4]⟩ : TokensEdit) (.arr [.int 5, .int 5, .arr [.int 1, .int 4]]) :=
    form_toArray _
  have hsecond : Form (⟨15, 0, []⟩ : TokensEdit)
      (.obj [("start", .int 15), ("deleteCount", .int 0), ("data", .arr [])]) := form_toJson _
  have hform : Form delta json :=
    ⟨_, .cons rfl (.cons ⟨_, rfl, .cons hfirst (.cons hsecond .nil)⟩ .nil), .inr rfl⟩
  obtain ⟨-, -, -, -, -, -, hdelta, -⟩ := wire_values_survive
  exact ⟨hform, hdelta.forms delta json hform⟩

end LineTokens
