import LineTokens.Proofs.Server.Runs

/-! Runs as lists of events: a command is given, or the stopped worker of a document goes on. Two
servers agree on a document if it is the same in both and will be treated the same way. An event
that does not concern the document leaves this as it is, and one that concerns it is answered alike
by servers that agree and leaves them in agreement. -/

namespace LineTokens

namespace Server

variable {s t u : Server} {uri : String} {event : Event}

inductive Event
  | perform (command : Command)
  | settle (uri : String)

/-- The server after an event, and what it answers; letting a worker go on has no answer. -/
def happen (s : Server) : Event → Server × Option Answer
  | .perform command =>
    let (s, answer) := s.perform command
    (s, some answer)
  | .settle uri =>
    match s.documents.get? uri with
    | none => (s, none)
    | some document => (s.settle document, none)

/-- The server after a run of events, and the answers in order. -/
def happenAll (s : Server) : List Event → Server × List (Option Answer)
  | [] => (s, [])
  | event :: rest =>
    let (s, answer) := s.happen event
    let (s, answers) := s.happenAll rest
    (s, answer :: answers)

/-- The command is about the document, or about the gate, which is the same for all documents. -/
def Command.concerns (uri : String) : Command → Bool
  | .didOpen other _ | .didChange other _ | .didClose other | .full other | .fullPartial other
  | .range other _ | .rangePartial other _ | .delta other _ | .text other => other == uri
  | .documents => false
  | .hold | .release => true

def Event.concerns (uri : String) : Event → Bool
  | .perform command => command.concerns uri
  | .settle other => other == uri

/-! ### Agreement on a document -/

structure Agrees (uri : String) (s t : Server) : Prop where
  tokenizer_eq : s.tokenizer = t.tokenizer
  options_eq : s.options = t.options
  gate_eq : s.gate = t.gate
  found_eq : s.documents.get? uri = t.documents.get? uri

theorem Agrees.refl (uri : String) (s : Server) : Agrees uri s s := ⟨rfl, rfl, rfl, rfl⟩

theorem Agrees.symm (h : Agrees uri s t) : Agrees uri t s :=
  ⟨h.tokenizer_eq.symm, h.options_eq.symm, h.gate_eq.symm, h.found_eq.symm⟩

theorem Agrees.trans (h : Agrees uri s t) (h' : Agrees uri t u) : Agrees uri s u :=
  ⟨h.tokenizer_eq.trans h'.tokenizer_eq, h.options_eq.trans h'.options_eq,
    h.gate_eq.trans h'.gate_eq, h.found_eq.trans h'.found_eq⟩

theorem Agrees.document_eq (h : Agrees uri s t) : s.document uri = t.document uri := by
  rw [document, document, h.found_eq]

theorem Agrees.put (h : Agrees uri s t) (document : Document) :
    Agrees uri (s.put document) (t.put document) :=
  ⟨h.tokenizer_eq, h.options_eq, h.gate_eq, by rw [get?_put, get?_put, h.found_eq]⟩

theorem Agrees.map {f g : Document → Document} (h : Agrees uri s t) (gate : Gate) (hfg : f = g) :
    Agrees uri { s with gate, documents := s.documents.map f }
      { t with gate, documents := t.documents.map g } :=
  ⟨h.tokenizer_eq, h.options_eq, rfl, by
    rw [Registry.get?_map, Registry.get?_map, h.found_eq, hfg]⟩

/-- A text is opened in the same way whatever documents are open. -/
theorem didOpen_congr (htokenizer : s.tokenizer = t.tokenizer) (hoptions : s.options = t.options)
    (hgate : s.gate = t.gate) (key : String) (text : List Char) :
    (s.didOpen key text).2 = (t.didOpen key text).2 ∧
      Agrees key (s.didOpen key text).1 (t.didOpen key text).1 := by
  obtain ⟨d, change, hloads⟩ := Document.replace_create s.tokenizer key s.gate text
  have hkey := hloads.stands.uri_eq
  have hreplace := hloads.replace_eq
  have hreplace' := hreplace
  rw [htokenizer, hgate] at hreplace'
  unfold didOpen
  dsimp only
  rw [hreplace, hreplace']
  refine ⟨rfl, htokenizer, hoptions, hgate, ?_⟩
  rw [get?_put, get?_put, if_pos hkey.symm, if_pos hkey.symm]

theorem didChange_congr (h : Agrees uri s t) (changes : List ContentChange) :
    (s.didChange uri changes).2 = (t.didChange uri changes).2 ∧
      Agrees uri (s.didChange uri changes).1 (t.didChange uri changes).1 := by
  unfold didChange
  rw [← h.document_eq, ← h.tokenizer_eq]
  cases s.document uri with
  | error error => exact ⟨rfl, h⟩
  | ok document =>
    dsimp only
    cases ContentChange.edits changes with
    | error error => exact ⟨rfl, h⟩
    | ok edits =>
      dsimp only
      cases document.replace s.tokenizer edits with
      | error error => exact ⟨rfl, h⟩
      | ok outcome => exact ⟨rfl, h.put outcome.1⟩

theorem didClose_congr (h : Agrees uri s t) :
    (s.didClose uri).2 = (t.didClose uri).2 ∧
      Agrees uri (s.didClose uri).1 (t.didClose uri).1 := by
  refine ⟨congrArg Option.isSome h.found_eq, h.tokenizer_eq, h.options_eq, h.gate_eq, ?_⟩
  exact (s.documents.get?_remove_self uri).trans (t.documents.get?_remove_self uri).symm

theorem tokensDelta_congr (h : Agrees uri s t) (previous : String) :
    (s.tokensDelta uri previous).2 = (t.tokensDelta uri previous).2 ∧
      Agrees uri (s.tokensDelta uri previous).1 (t.tokensDelta uri previous).1 := by
  unfold tokensDelta
  rw [← h.document_eq]
  cases s.document uri with
  | error error => exact ⟨rfl, h⟩
  | ok document => exact ⟨rfl, h.put document.takePatch.1⟩

theorem Agrees.result_eq (h : Agrees uri s t) : s.result uri = t.result uri := by
  rw [result, result, h.document_eq]

/-- A command about a document is answered alike by servers that agree on the document, and they
agree on it afterwards. -/
theorem perform_congr {command : Command} (h : Agrees uri s t)
    (hconcerns : command.concerns uri = true) :
    (s.perform command).2 = (t.perform command).2 ∧
      Agrees uri (s.perform command).1 (t.perform command).1 := by
  cases command with
  | didOpen key text =>
    obtain rfl : key = uri := beq_iff_eq.mp hconcerns
    obtain ⟨houtcome, hagrees⟩ := didOpen_congr h.tokenizer_eq h.options_eq h.gate_eq key text
    exact ⟨congrArg (Answer.ofExcept .ofDocument) houtcome, hagrees⟩
  | didChange key changes =>
    obtain rfl : key = uri := beq_iff_eq.mp hconcerns
    obtain ⟨houtcome, hagrees⟩ := didChange_congr h changes
    exact ⟨congrArg (Answer.ofExcept .ofDocument) houtcome, hagrees⟩
  | didClose key =>
    obtain rfl : key = uri := beq_iff_eq.mp hconcerns
    obtain ⟨houtcome, hagrees⟩ := didClose_congr h
    exact ⟨congrArg Answer.closed houtcome, hagrees⟩
  | delta key previous =>
    obtain rfl : key = uri := beq_iff_eq.mp hconcerns
    obtain ⟨houtcome, hagrees⟩ := tokensDelta_congr h previous
    exact ⟨congrArg (Answer.ofExcept .delta) houtcome, hagrees⟩
  | full key =>
    obtain rfl : key = uri := beq_iff_eq.mp hconcerns
    exact ⟨by simp only [perform, tokensFull, h.result_eq], h⟩
  | fullPartial key =>
    obtain rfl : key = uri := beq_iff_eq.mp hconcerns
    exact ⟨by simp only [perform, tokensFullPartial, h.result_eq, h.options_eq], h⟩
  | range key range =>
    obtain rfl : key = uri := beq_iff_eq.mp hconcerns
    exact ⟨by simp only [perform, tokensRange, h.result_eq], h⟩
  | rangePartial key range =>
    obtain rfl : key = uri := beq_iff_eq.mp hconcerns
    exact ⟨by simp only [perform, tokensRangePartial, h.result_eq, h.options_eq], h⟩
  | text key =>
    obtain rfl : key = uri := beq_iff_eq.mp hconcerns
    exact ⟨by simp only [perform, h.found_eq], h⟩
  | documents => cases hconcerns
  | hold => exact ⟨rfl, h.map .closed rfl⟩
  | release => exact ⟨rfl, h.map .opened (by rw [h.tokenizer_eq])⟩

theorem happen_congr (h : Agrees uri s t) (hconcerns : event.concerns uri = true) :
    (s.happen event).2 = (t.happen event).2 ∧ Agrees uri (s.happen event).1 (t.happen event).1 := by
  cases event with
  | perform command =>
    obtain ⟨hanswer, hagrees⟩ := perform_congr h hconcerns
    exact ⟨congrArg some hanswer, hagrees⟩
  | settle key =>
    obtain rfl : key = uri := beq_iff_eq.mp hconcerns
    unfold happen
    dsimp only
    rw [← h.found_eq]
    cases s.documents.get? key with
    | none => exact ⟨rfl, h⟩
    | some document =>
      dsimp only
      unfold Server.settle
      rw [h.tokenizer_eq]
      exact ⟨rfl, h.put _⟩

/-! ### Events about other documents -/

/-- A document that is put back concerns no other URI. -/
theorem agrees_put {d d' : Document} {key : String} (hs : s.Sound)
    (hd : s.documents.get? key = some d) (huri : d'.uri = d.uri) (hne : key ≠ uri) :
    Agrees uri s (s.put d') := by
  refine ⟨rfl, rfl, rfl, ?_⟩
  rw [get?_put, if_neg]
  rw [huri, (hs key d hd).uri_eq]
  exact hne.symm

theorem agrees_didOpen {key : String} (text : List Char) (hne : key ≠ uri) :
    Agrees uri s (s.didOpen key text).1 := by
  obtain ⟨d, hopens⟩ := s.didOpen_opens key text
  refine ⟨hopens.tokenizer_eq.symm, hopens.options_eq.symm, ?_, (hopens.others uri hne.symm).symm⟩
  unfold didOpen
  dsimp only
  split <;> rfl

theorem agrees_didChange {key : String} (hs : s.Sound) (changes : List ContentChange)
    (hne : key ≠ uri) : Agrees uri s (s.didChange key changes).1 := by
  unfold didChange
  split
  · exact .refl uri s
  · rename_i d hd
    split
    · exact .refl uri s
    · split
      · exact .refl uri s
      · rename_i d' change hreplace
        exact agrees_put hs (document_eq_ok_iff.mp hd)
          (Document.later_replace hreplace).uri_eq hne

theorem agrees_tokensDelta {key : String} (hs : s.Sound) (previous : String) (hne : key ≠ uri) :
    Agrees uri s (s.tokensDelta key previous).1 := by
  unfold tokensDelta
  split
  · exact .refl uri s
  · rename_i d hd
    exact agrees_put hs (document_eq_ok_iff.mp hd) rfl hne

theorem agrees_perform {command : Command} (hs : s.Sound)
    (hconcerns : command.concerns uri = false) : Agrees uri s (s.perform command).1 := by
  cases command with
  | didOpen key text => exact agrees_didOpen text (beq_eq_false_iff_ne.mp hconcerns)
  | didChange key changes =>
    exact agrees_didChange hs changes (beq_eq_false_iff_ne.mp hconcerns)
  | didClose key =>
    have hne : key ≠ uri := beq_eq_false_iff_ne.mp hconcerns
    exact ⟨rfl, rfl, rfl, (s.documents.get?_remove_of_ne hne.symm).symm⟩
  | delta key previous =>
    exact agrees_tokensDelta hs previous (beq_eq_false_iff_ne.mp hconcerns)
  | full | fullPartial | range | rangePartial | text | documents => exact .refl uri s
  | hold | release => cases hconcerns

theorem agrees_happen (hs : s.Sound) (hconcerns : event.concerns uri = false) :
    Agrees uri s (s.happen event).1 := by
  cases event with
  | perform command => exact agrees_perform hs hconcerns
  | settle key =>
    have hne : key ≠ uri := beq_eq_false_iff_ne.mp hconcerns
    unfold happen
    dsimp only
    split
    · exact .refl uri s
    · rename_i d hd
      exact agrees_put hs hd rfl hne

/-! ### Runs -/

theorem Runs.happen {first : Server} (h : Runs (fun _ => True) first s) (event : Event) :
    Runs (fun _ => True) first (s.happen event).1 := by
  cases event with
  | perform command => exact h.perform command trivial
  | settle key =>
    unfold Server.happen
    dsimp only
    split
    · exact h
    · rename_i d hd
      exact h.settle key d hd

theorem Runs.happenAll {first : Server} (h : Runs (fun _ => True) first s) (events : List Event) :
    Runs (fun _ => True) first (s.happenAll events).1 := by
  induction events generalizing s with
  | nil => exact h
  | cons event rest ih => exact ih (h.happen event)

theorem Sound.happen (hs : s.Sound) (event : Event) : (s.happen event).1.Sound :=
  ((Runs.start.happen event).sound hs).1

end Server

end LineTokens
