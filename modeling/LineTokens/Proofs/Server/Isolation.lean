import LineTokens.Proofs.Server.Events

/-! Documents apart from each other. What a run shows of one document depends only on the events
that concern it: the run of these alone shows the same. Opening a text makes servers agree on the
document whatever went before, so everything since then depends only on what happened to it. -/

namespace LineTokens

namespace Server

variable {s t : Server} {uri : String}

/-- The answers of a run to the events that concern a document. -/
def answersOn (uri : String) (s : Server) : List Event → List (Option Answer)
  | [] => []
  | event :: rest =>
    let (next, answer) := s.happen event
    if event.concerns uri then answer :: next.answersOn uri rest else next.answersOn uri rest

theorem answersOn_cons_of_concerns {event : Event} (h : event.concerns uri = true)
    (s : Server) (rest : List Event) :
    s.answersOn uri (event :: rest) =
      (s.happen event).2 :: (s.happen event).1.answersOn uri rest :=
  if_pos h

theorem answersOn_cons_of_not_concerns {event : Event} (h : event.concerns uri = false)
    (s : Server) (rest : List Event) :
    s.answersOn uri (event :: rest) = (s.happen event).1.answersOn uri rest :=
  if_neg (by simp [h])

/-- The events that concern a document are answered as in a run of them alone, and both runs end in
agreement on the document. -/
theorem happenAll_filter (hs : s.Sound) (h : Agrees uri s t) (events : List Event) :
    let alone := t.happenAll (events.filter (·.concerns uri))
    s.answersOn uri events = alone.2 ∧ Agrees uri (s.happenAll events).1 alone.1 := by
  induction events generalizing s t with
  | nil => exact ⟨rfl, h⟩
  | cons event rest ih =>
    have hnext := hs.happen event
    cases hconcerns : event.concerns uri with
    | true =>
      obtain ⟨hanswer, hagrees⟩ := happen_congr h hconcerns
      obtain ⟨hanswers, hlast⟩ := ih hnext hagrees
      rw [List.filter_cons_of_pos hconcerns, answersOn_cons_of_concerns hconcerns, hanswer,
        hanswers]
      exact ⟨rfl, hlast⟩
    | false =>
      obtain ⟨hanswers, hlast⟩ := ih hnext ((agrees_happen hs hconcerns).symm.trans h)
      rw [List.filter_cons_of_neg (by simp [hconcerns]), answersOn_cons_of_not_concerns hconcerns]
      exact ⟨hanswers, hlast⟩

/-- Two runs that agree on a document and on the events that concern it from then on. -/
theorem Agrees.happenAll (h : Agrees uri s t) (hs : s.Sound) (ht : t.Sound)
    {events events' : List Event}
    (hsame : events.filter (·.concerns uri) = events'.filter (·.concerns uri)) :
    s.answersOn uri events = t.answersOn uri events' ∧
      Agrees uri (s.happenAll events).1 (t.happenAll events').1 := by
  obtain ⟨hanswers, hlast⟩ := happenAll_filter hs h events
  obtain ⟨hanswers', hlast'⟩ := happenAll_filter ht (.refl uri t) events'
  rw [hsame] at hanswers hlast
  exact ⟨hanswers.trans hanswers'.symm, hlast.trans hlast'.symm⟩

/-- A document that is opened starts afresh and stands apart. Any two runs, whatever happened in
them before, in which the text is opened with the gate in the same position and in which the same
events then happen to the document and to the gate, answer the opening and all of these events
alike, and the document ends the same: its text and version, its analysis with the pending patch,
and the pass that may be stopped. -/
theorem reopened_document_isolated (tokenizer : Tokenizer) (options : ServerOptions)
    (before before' after after' : List Event) (uri : String) (text : List Char) :
    let s := ((start tokenizer options).happenAll before).1
    let t := ((start tokenizer options).happenAll before').1
    let opening := Event.perform (.didOpen uri text)
    s.gate = t.gate → after.filter (·.concerns uri) = after'.filter (·.concerns uri) →
      s.answersOn uri (opening :: after) = t.answersOn uri (opening :: after') ∧
        (s.happenAll (opening :: after)).1.documents.get? uri =
          (t.happenAll (opening :: after')).1.documents.get? uri := by
  intro s t opening hgate hsame
  obtain ⟨hs, htokenizer, hoptions⟩ :=
    (Runs.start.happenAll before).sound (sound_start tokenizer options)
  obtain ⟨ht, htokenizer', hoptions'⟩ :=
    (Runs.start.happenAll before').sound (sound_start tokenizer options)
  obtain ⟨houtcome, hagrees⟩ := didOpen_congr (htokenizer.trans htokenizer'.symm)
    (hoptions.trans hoptions'.symm) hgate uri text
  have hconcerns : opening.concerns uri = true := beq_self_eq_true uri
  have hanswer : (s.happen opening).2 = (t.happen opening).2 :=
    congrArg (some ∘ Answer.ofExcept Answer.ofDocument) houtcome
  obtain ⟨hanswers, hlast⟩ :=
    Agrees.happenAll (s := (s.happen opening).1) (t := (t.happen opening).1) hagrees
      (hs.happen opening) (ht.happen opening) hsame
  rw [answersOn_cons_of_concerns hconcerns, answersOn_cons_of_concerns hconcerns, hanswer, hanswers]
  exact ⟨rfl, hlast.found_eq⟩

/-- The one run opens the text in place of a document whose pass is stopped with an edit queued, and
works at another document meanwhile; in the other run nothing else happens. -/
theorem reopened_document_isolated_over_stopped_pass :
    let mark (line character : UInt32) : ContentChange :=
      ⟨⟨⟨line, character⟩, ⟨line, character⟩⟩, "!"⟩
    let before : List Event := [.perform (.didOpen "u" ['a', '\n', 'b']), .perform .hold,
      .perform (.didChange "u" [mark 0 1]), .perform (.didChange "u" [mark 1 1])]
    let after : List Event := [.perform (.didOpen "v" ['y']), .perform (.didChange "u" [mark 1 1]),
      .perform (.didChange "v" [mark 0 1]), .settle "v", .settle "u", .perform (.full "u"),
      .perform (.didClose "v"), .perform .release, .perform (.delta "u" "0"), .perform (.text "u")]
    let after' : List Event := [.perform (.didChange "u" [mark 1 1]), .settle "u",
      .perform (.full "u"), .perform .release, .perform (.delta "u" "0"), .perform (.text "u")]
    let s := ((start .firstBang .default).happenAll before).1
    let t := ((start .firstBang .default).happenAll [.perform .hold]).1
    let opening := Event.perform (.didOpen "u" ['c', '!', '\n', 'd'])
    s.gate = t.gate ∧
      after.filter (·.concerns "u") = after'.filter (·.concerns "u") ∧
      s.answersOn "u" (opening :: after) = t.answersOn "u" (opening :: after') ∧
      t.answersOn "u" (opening :: after') =
        [some (.versions 1 0), some (.versions 2 0), none, some (.tokens ⟨some "0", []⟩),
          some (.gate .opened),
          some (.delta ⟨⟨"1", [⟨0, 0, [0, 1, 1, 15, 0]⟩, ⟨5, 0, [1, 1, 1, 15, 0]⟩]⟩, none⟩),
          some (.text (some ⟨['c', '!', '\n', 'd', '!'], 2, 4, 2⟩))] := by
  intro mark before after after' s t opening
  have hgate : s.gate = t.gate := by decide +kernel
  have hsame : after.filter (·.concerns "u") = after'.filter (·.concerns "u") := rfl
  obtain ⟨hanswers, -⟩ := reopened_document_isolated .firstBang .default before [.perform .hold]
    after after' "u" ['c', '!', '\n', 'd'] hgate hsame
  exact ⟨hgate, hsame, hanswers, by decide +kernel⟩

end Server

end LineTokens
