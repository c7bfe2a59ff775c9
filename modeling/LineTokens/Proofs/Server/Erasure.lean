import LineTokens.Proofs.Server.Events

/-! Commands that leave no trace: requests for tokens other than deltas, and changes that are
refused or change nothing. A server is the same after such a command, up to the order in which its
registry keeps the documents, which nothing shows; so a run without them answers everything else
alike. -/

namespace LineTokens

namespace Registry

variable {α : Type} {r r' : Registry α}

def Distinct (r : Registry α) : Prop := (r.entries.map Prod.fst).Nodup

theorem mem_keys_iff (r : Registry α) (uri : String) :
    uri ∈ r.entries.map Prod.fst ↔ (r.get? uri).isSome = true := by
  rw [get?, List.lookup_isSome_iff, List.mem_map]
  constructor
  · rintro ⟨entry, hmem, heq⟩
    exact ⟨entry, hmem, beq_iff_eq.mpr heq.symm⟩
  · rintro ⟨entry, hmem, heq⟩
    exact ⟨entry, hmem, (beq_iff_eq.mp heq).symm⟩

theorem Distinct.remove (h : r.Distinct) (uri : String) : (r.remove uri).Distinct :=
  h.sublist (List.filter_sublist.map Prod.fst)

theorem Distinct.insert (h : r.Distinct) (uri : String) (value : α) :
    (r.insert uri value).Distinct := by
  have hnew : uri ∉ (r.remove uri).entries.map Prod.fst := by
    rw [mem_keys_iff, get?_remove_self]
    exact Bool.false_ne_true
  rw [Distinct, Registry.insert, List.map_append, List.map_singleton]
  refine List.nodup_append.mpr ⟨h.remove uri, by simp, fun key hkey other hother heq => ?_⟩
  rw [heq, List.mem_singleton.mp hother] at hkey
  exact hnew hkey

theorem Distinct.map (h : r.Distinct) (f : α → α) : (r.map f).Distinct := by
  rw [Distinct, Registry.map, List.map_map]
  exact h

/-- The URIs of a registry depend only on what is found under them. -/
theorem uris_congr (h : r.Distinct) (h' : r'.Distinct) (hfound : ∀ uri, r.get? uri = r'.get? uri) :
    r.uris = r'.uris := by
  have hperm : (r.entries.map Prod.fst).Perm (r'.entries.map Prod.fst) :=
    (List.perm_ext_iff_of_nodup h h').mpr fun uri => by
      rw [mem_keys_iff, mem_keys_iff, hfound uri]
  have hsorted (keys : List String) :
      (keys.mergeSort (· ≤ ·)).Pairwise fun a b => decide (a ≤ b) = true := by
    refine List.pairwise_mergeSort (fun a b c hab hbc => ?_) (fun a b => ?_) keys
    · exact decide_eq_true (String.le_trans (of_decide_eq_true hab) (of_decide_eq_true hbc))
    · simpa using String.le_total a b
  exact List.Perm.eq_of_pairwise
    (fun _ _ _ _ hab hba => String.le_antisymm (of_decide_eq_true hab) (of_decide_eq_true hba))
    (hsorted _) (hsorted _)
    ((List.mergeSort_perm _ _).trans (hperm.trans (List.mergeSort_perm _ _).symm))

end Registry

theorem Document.replace_of_noChange {tokenizer : Tokenizer} {d : Document} {edits : List Edit}
    (h : d.snapshot.apply edits = .ok none) : d.replace tokenizer edits = .ok (d, none) := by
  have hbuffer : d.content.buffer.current.apply edits = .ok none := h
  simp only [replace, AnalyzedBuffer.replace, TextBuffer.replace, hbuffer]

namespace Server

variable {tokenizer : Tokenizer} {options : ServerOptions} {s t u : Server}

/-- The changes are well formed, and as a batch of edits they change no line of the document. -/
def ChangesNothing (s : Server) (uri : String) (changes : List ContentChange) : Prop :=
  ∃ document edits, s.documents.get? uri = some document ∧
    ContentChange.edits changes = .ok edits ∧ document.snapshot.apply edits = .ok none

/-- Commands that leave no trace when they are given to a server: changes that are answered with an
error, changes that change nothing, and requests for tokens that take no patch. -/
def Traceless (s : Server) : Command → Prop
  | .didChange uri changes =>
    (∃ error, (s.perform (.didChange uri changes)).2 = .error error) ∨ s.ChangesNothing uri changes
  | .full _ | .fullPartial _ | .range .. | .rangePartial .. => True
  | _ => False

/-- `kept` is left of a run of `events` if some commands that leave no trace in it are taken out,
and `answers` are the run's answers to what is kept. -/
inductive Erases : Server → List Event → List Event → List (Option Answer) → Prop
  | nil (s : Server) : Erases s [] [] []
  | keep {s : Server} {rest kept : List Event} {answers : List (Option Answer)} (event : Event)
      (erases : Erases (s.happen event).1 rest kept answers) :
      Erases s (event :: rest) (event :: kept) ((s.happen event).2 :: answers)
  | erase {s : Server} {rest kept : List Event} {answers : List (Option Answer)}
      (command : Command) (traceless : s.Traceless command)
      (erases : Erases (s.happen (.perform command)).1 rest kept answers) :
      Erases s (.perform command :: rest) kept answers

/-- Nothing need be taken out. -/
theorem erases_self (s : Server) (events : List Event) :
    Erases s events events (s.happenAll events).2 := by
  induction events generalizing s with
  | nil => exact .nil s
  | cons event rest ih => exact .keep event (ih _)

theorem Erases.prepend {rest kept : List Event} {answers : List (Option Answer)}
    (before : List Event) (h : Erases (s.happenAll before).1 rest kept answers) :
    Erases s (before ++ rest) (before ++ kept) ((s.happenAll before).2 ++ answers) := by
  induction before generalizing s with
  | nil => exact h
  | cons event before ih => exact .keep event (ih h)

/-! ### Servers that nothing tells apart -/

/-- Two servers hold the same documents, in whatever order their registries keep them. -/
structure Same (s t : Server) : Prop where
  agrees : ∀ uri, Agrees uri s t
  distinct : s.documents.Distinct
  distinct' : t.documents.Distinct

theorem Same.refl (hdistinct : s.documents.Distinct) : Same s s :=
  ⟨fun uri => .refl uri s, hdistinct, hdistinct⟩

theorem Same.trans (h : Same s t) (h' : Same t u) : Same s u :=
  ⟨fun uri => (h.agrees uri).trans (h'.agrees uri), h.distinct, h'.distinct'⟩

theorem distinct_perform {command : Command} (h : s.documents.Distinct) :
    (s.perform command).1.documents.Distinct := by
  cases command with
  | didOpen key text =>
    have hcreated := (h.remove key).insert key (Document.create key s.gate)
    unfold perform didOpen
    dsimp only
    split
    · exact hcreated
    · exact hcreated.insert _ _
  | didChange key changes =>
    unfold perform didChange
    dsimp only
    split
    · exact h
    · split
      · exact h
      · split
        · exact h
        · exact h.insert _ _
  | delta key previous =>
    unfold perform tokensDelta
    dsimp only
    split
    · exact h
    · exact h.insert _ _
  | didClose key => exact h.remove key
  | hold | release => exact h.map _
  | full | fullPartial | range | rangePartial | text | documents => exact h

theorem distinct_happen (h : s.documents.Distinct) (event : Event) :
    (s.happen event).1.documents.Distinct := by
  cases event with
  | perform command => exact distinct_perform h
  | settle key =>
    unfold happen
    dsimp only
    split
    · exact h
    · exact h.insert _ _

theorem exists_concerns (event : Event) :
    event = .perform .documents ∨ ∃ uri, event.concerns uri = true := by
  cases event with
  | settle uri => exact .inr ⟨uri, beq_self_eq_true uri⟩
  | perform command =>
    cases command with
    | documents => exact .inl rfl
    | hold => exact .inr ⟨"", rfl⟩
    | release => exact .inr ⟨"", rfl⟩
    | didOpen uri | didChange uri | didClose uri | full uri | fullPartial uri | range uri
      | rangePartial uri | delta uri | text uri => exact .inr ⟨uri, beq_self_eq_true uri⟩

/-- Servers that hold the same documents answer every event alike and hold the same ones after. -/
theorem Same.happen (h : Same s t) (hs : s.Sound) (ht : t.Sound) (event : Event) :
    (s.happen event).2 = (t.happen event).2 ∧ Same (s.happen event).1 (t.happen event).1 := by
  refine ⟨?_, fun uri => ?_, distinct_happen h.distinct event, distinct_happen h.distinct' event⟩
  · rcases exists_concerns event with rfl | ⟨uri, hconcerns⟩
    · have huris := Registry.uris_congr h.distinct h.distinct' fun uri => (h.agrees uri).found_eq
      exact congrArg (some ∘ Answer.uris) huris
    · exact (happen_congr (h.agrees uri) hconcerns).1
  · cases hconcerns : event.concerns uri with
    | true => exact (happen_congr (h.agrees uri) hconcerns).2
    | false =>
      exact (agrees_happen hs hconcerns).symm.trans
        ((h.agrees uri).trans (agrees_happen ht hconcerns))

/-! ### Commands without a trace -/

/-- A document that is put back as it was is in the registry what it was. -/
theorem same_put {d : Document} {key : String} (hs : s.Sound) (hdistinct : s.documents.Distinct)
    (hd : s.documents.get? key = some d) : Same s (s.put d) := by
  refine ⟨fun uri => ⟨rfl, rfl, rfl, ?_⟩, hdistinct, hdistinct.insert _ _⟩
  rw [get?_put]
  split
  · rename_i huri
    rw [huri, (hs key d hd).uri_eq, hd]
  · rfl

theorem didChange_of_changesNothing {uri : String} {changes : List ContentChange}
    (h : s.ChangesNothing uri changes) :
    ∃ document, s.documents.get? uri = some document ∧
      (s.didChange uri changes).1 = s.put document := by
  obtain ⟨document, edits, hfound, hedits, happly⟩ := h
  refine ⟨document, hfound, ?_⟩
  simp only [didChange, document_eq_ok_iff.mpr hfound, hedits, Document.replace_of_noChange happly]

theorem didChange_of_error {uri : String} {changes : List ContentChange} {error : ServerError}
    (h : (s.perform (.didChange uri changes)).2 = .error error) :
    (s.didChange uri changes).1 = s := by
  cases hdocument : s.document uri with
  | error _ => simp only [didChange, hdocument]
  | ok document =>
    cases hedits : ContentChange.edits changes with
    | error _ => simp only [didChange, hdocument, hedits]
    | ok edits =>
      cases hreplace : document.replace s.tokenizer edits with
      | error _ => simp only [didChange, hdocument, hedits, hreplace]
      | ok outcome =>
        simp only [perform, didChange, hdocument, hedits, hreplace] at h
        cases h

theorem Traceless.same {command : Command} (h : s.Traceless command) (hs : s.Sound)
    (hdistinct : s.documents.Distinct) : Same s (s.perform command).1 := by
  cases command with
  | didChange key changes =>
    rcases h with ⟨error, herror⟩ | hnothing
    · have hstate : (s.perform (.didChange key changes)).1 = s := didChange_of_error herror
      rw [hstate]
      exact .refl hdistinct
    · obtain ⟨document, hfound, hput⟩ := didChange_of_changesNothing hnothing
      have hstate : (s.perform (.didChange key changes)).1 = s.put document := hput
      rw [hstate]
      exact same_put hs hdistinct hfound
  | full | fullPartial | range | rangePartial => exact .refl hdistinct
  | didOpen | didClose | delta | text | documents | hold | release => exact h.elim

/-! ### Runs -/

/-- The run of what is kept answers like the whole run and ends with the same documents. -/
theorem Erases.happenAll {events kept : List Event} {answers : List (Option Answer)}
    (h : Erases s events kept answers) (hs : s.Sound) (ht : t.Sound) (hsame : Same t s) :
    (t.happenAll kept).2 = answers ∧ Same (t.happenAll kept).1 (s.happenAll events).1 := by
  induction h generalizing t with
  | nil s => exact ⟨rfl, hsame⟩
  | keep event _ ih =>
    obtain ⟨hanswer, hnext⟩ := hsame.happen ht hs event
    obtain ⟨hanswers, hlast⟩ := ih (hs.happen event) (ht.happen event) hnext
    exact ⟨congr (congrArg List.cons hanswer) hanswers, hlast⟩
  | erase command htraceless _ ih =>
    exact ih (hs.happen _) ht (hsame.trans (htraceless.same hs hsame.distinct'))

/-- Whatever commands without a trace are taken out of a run, all others are answered as in the
whole run, and every document ends as there: its text and version, its analysis with the pending
patch, and the pass that may be stopped. -/
theorem erased_commands_leave_no_trace {events kept : List Event}
    {answers : List (Option Answer)}
    (herases : Erases (start tokenizer options) events kept answers) :
    ((start tokenizer options).happenAll kept).2 = answers ∧
      ∀ uri, ((start tokenizer options).happenAll kept).1.documents.get? uri =
        ((start tokenizer options).happenAll events).1.documents.get? uri := by
  have hsound := sound_start tokenizer options
  obtain ⟨hanswers, hlast⟩ := herases.happenAll hsound hsound (.refl List.nodup_nil)
  exact ⟨hanswers, fun uri => (hlast.agrees uri).found_eq⟩

/-- While a pass is stopped, a batch that is refused only after an edit of it was done, a change to
an unknown document, a change that changes nothing and a request are taken out. -/
theorem erased_commands_leave_no_trace_in_stopped_pass :
    let change (line character : UInt32) (text : String) : ContentChange :=
      ⟨⟨⟨line, character⟩, ⟨line, character⟩⟩, text⟩
    let before : List Event := [.perform (.didOpen "u" ['a', '\n', 'b']), .perform .hold,
      .perform (.didChange "u" [change 0 1 "!"])]
    let refused := Command.didChange "u" [change 0 2 "x", change 0 0 "\n"]
    let unknown := Command.didChange "w" []
    let unchanging := Command.didChange "u" [change 0 0 ""]
    let after : List Event := [.perform .release, .perform (.delta "u" "1"), .perform (.text "u")]
    let s := start .firstBang .default
    let answers : List (Option Answer) := [some (.versions 1 1), some (.gate .closed),
      some (.versions 2 1), some (.gate .opened),
      some (.delta ⟨⟨"2", [⟨0, 5, [0, 1, 1, 15, 0]⟩]⟩, none⟩),
      some (.text (some ⟨['a', '!', '\n', 'b'], 2, 3, 2⟩))]
    Erases s (before ++ .perform refused :: .perform unknown :: .perform unchanging ::
      .perform (.full "u") :: after) (before ++ after) answers ∧
      (s.happenAll (before ++ after)).2 = answers := by
  intro change before refused unknown unchanging after s answers
  let stopped := (s.happenAll before).1
  let later := (stopped.happen (.perform refused)).1
  let latest := (later.happen (.perform unknown)).1
  have hrefused : stopped.Traceless refused := Or.inl ⟨.edit (.lineBreak 0), by decide +kernel⟩
  have hunknown : later.Traceless unknown := Or.inl ⟨.unknownDocument "w", by decide +kernel⟩
  have happly : (latest.documents.get? "u").map (·.snapshot.apply [⟨0, 0, 0, []⟩]) =
      some (.ok none) := by decide +kernel
  obtain ⟨d, hfound, happly⟩ := Option.map_eq_some_iff.mp happly
  have hnothing : latest.Traceless unchanging := Or.inr ⟨d, _, hfound, rfl, happly⟩
  have herases := Erases.prepend before <| .erase refused hrefused <| .erase unknown hunknown <|
    .erase unchanging hnothing <| .erase (.full "u") trivial <| erases_self _ after
  obtain ⟨htold, -⟩ := erased_commands_leave_no_trace herases
  have hanswers : (s.happenAll (before ++ after)).2 = answers := by decide +kernel
  rw [← htold, hanswers] at herases
  exact ⟨herases, hanswers⟩

end Server

end LineTokens
