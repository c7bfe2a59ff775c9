import LineTokens.Proofs.Server.Documents

/-! Runs of a server: commands in any order, and stopped workers let go on at any time between them.
Every open document stands throughout, and a document that no command opens or closes stays open. -/

namespace LineTokens

namespace Server

variable {s t : Server} {uri : String} {command : Command} {permitted : Command → Prop}

/-- The command neither opens nor closes the document. -/
def Command.Keeps (uri : String) : Command → Prop
  | .didOpen other _ | .didClose other => other ≠ uri
  | _ => True

/-- The worker of a document, if the gate has stopped it in a call, goes on to the next stop. -/
def settle (s : Server) (document : Document) : Server :=
  s.put { document with content := document.content.step s.tokenizer }

/-- The states that permitted commands lead to, with workers let go on at any time. -/
inductive Runs (permitted : Command → Prop) (first : Server) : Server → Prop
  | start : Runs permitted first first
  | perform {s : Server} (command : Command) (ran : Runs permitted first s)
      (allowed : permitted command) : Runs permitted first (s.perform command).1
  | settle {s : Server} (uri : String) (document : Document) (ran : Runs permitted first s)
      (found : s.documents.get? uri = some document) : Runs permitted first (s.settle document)

theorem Runs.performAll {first : Server} {commands : List Command} (h : Runs permitted first s)
    (hall : ∀ command ∈ commands, permitted command) :
    Runs permitted first (s.performAll commands).1 := by
  induction commands generalizing s with
  | nil => exact h
  | cons command rest ih =>
    exact ih (h.perform command (hall command List.mem_cons_self)) fun other hother =>
      hall other (List.mem_cons_of_mem _ hother)

/-- Every open document stands. -/
def Sound (s : Server) : Prop :=
  ∀ uri document, s.documents.get? uri = some document → document.Stands s.tokenizer uri

/-! ### What a command does to one document -/

/-- The document under a URI is the same some calls later, or there is none before and after. -/
def Later (uri : String) (s t : Server) : Prop :=
  Option.Rel (Document.Later s.tokenizer) (s.documents.get? uri) (t.documents.get? uri)

theorem Later.of_eq (h : t.documents.get? uri = s.documents.get? uri) : Later uri s t := by
  rw [Later, h]
  cases s.documents.get? uri with
  | none => exact .none
  | some document => exact .some (.refl document)

theorem get?_put (s : Server) (document : Document) (uri : String) :
    (s.put document).documents.get? uri =
      if uri = document.uri then some document else s.documents.get? uri := by
  by_cases h : uri = document.uri
  · rw [if_pos h, h]
    exact s.documents.get?_insert_self _ _
  · rw [if_neg h]
    exact s.documents.get?_insert_of_ne _ h

/-- A document of the server is put back some calls later. -/
theorem later_put {d d' : Document} (hs : s.Sound) {key : String}
    (hd : s.documents.get? key = some d) (hlater : d.Later s.tokenizer d') :
    Later uri s (s.put d') := by
  have hkey : d'.uri = key := hlater.uri_eq.trans (hs key d hd).uri_eq
  by_cases h : uri = d'.uri
  · rw [Later, get?_put, if_pos h, h, hkey, hd]
    exact .some hlater
  · exact .of_eq (by rw [get?_put, if_neg h])

theorem document_eq_ok_iff {d : Document} :
    s.document uri = .ok d ↔ s.documents.get? uri = some d := by
  unfold document
  cases s.documents.get? uri with
  | none => simp
  | some document => simp

theorem result_eq {d : Document} (hd : s.documents.get? uri = some d) :
    s.result uri = .ok d.result := by
  rw [result, document_eq_ok_iff.mpr hd]
  rfl

theorem later_didChange (hs : s.Sound) (key : String) (changes : List ContentChange) :
    Later uri s (s.didChange key changes).1 := by
  unfold didChange
  split
  · exact .of_eq rfl
  · rename_i d hd
    split
    · exact .of_eq rfl
    · split
      · exact .of_eq rfl
      · rename_i d' change hreplace
        exact later_put hs (document_eq_ok_iff.mp hd) (Document.later_replace hreplace)

theorem later_tokensDelta (hs : s.Sound) (key previous : String) :
    Later uri s (s.tokensDelta key previous).1 := by
  unfold tokensDelta
  split
  · exact .of_eq rfl
  · rename_i d hd
    exact later_put hs (document_eq_ok_iff.mp hd) d.later_takePatch

theorem later_map (f : Document → Document) (hdocuments : t.documents = s.documents.map f)
    (hf : ∀ d : Document, d.Later s.tokenizer (f d)) : Later uri s t := by
  rw [Later, hdocuments, Registry.get?_map]
  cases s.documents.get? uri with
  | none => exact .none
  | some document => exact .some (hf document)

/-- What opening a text does: the document has the lines of the text, and all else stays. -/
structure Opens (s : Server) (key : String) (text : List Char) (d : Document) : Prop where
  outcome : (s.didOpen key text).2 = .ok d
  found : (s.didOpen key text).1.documents.get? key = some d
  stands : d.Stands s.tokenizer key
  lines_eq : d.snapshot.lines = Text.splitLines text
  gate_eq : d.content.gate = s.gate
  tokenizer_eq : (s.didOpen key text).1.tokenizer = s.tokenizer
  options_eq : (s.didOpen key text).1.options = s.options
  others : ∀ uri, uri ≠ key → (s.didOpen key text).1.documents.get? uri = s.documents.get? uri

theorem opens_of_loads {s : Server} {key : String} {text : List Char} {d : Document}
    {change : Change} (h : Document.Loads s.tokenizer key s.gate text d change) :
    s.Opens key text d := by
  have hopened : s.didOpen key text =
      (({ s with
          documents := (s.documents.remove key).insert key (.create key s.gate) } : Server).put d,
        .ok d) := by
    unfold didOpen
    dsimp only
    rw [h.replace_eq]
  refine ⟨by rw [hopened], ?_, h.stands, h.represents.lines_eq, h.gate_eq, by rw [hopened]; rfl,
    by rw [hopened]; rfl, fun uri huri => ?_⟩
  · rw [hopened, get?_put, if_pos h.stands.uri_eq.symm]
  · rw [hopened, get?_put, if_neg (h.stands.uri_eq ▸ huri)]
    exact (Registry.get?_insert_of_ne _ _ huri).trans (s.documents.get?_remove_of_ne huri)

/-- Opening a text never fails. -/
theorem didOpen_opens (s : Server) (key : String) (text : List Char) : ∃ d, s.Opens key text d := by
  obtain ⟨d, change, hloads⟩ := Document.replace_create s.tokenizer key s.gate text
  exact ⟨d, opens_of_loads hloads⟩

/-- No command changes the tokenizer or the options. -/
theorem perform_eq (s : Server) (command : Command) :
    (s.perform command).1.tokenizer = s.tokenizer ∧ (s.perform command).1.options = s.options := by
  cases command with
  | didOpen key text =>
    obtain ⟨d, hopens⟩ := s.didOpen_opens key text
    exact ⟨hopens.tokenizer_eq, hopens.options_eq⟩
  | didChange key changes =>
    unfold perform didChange
    dsimp only
    split
    · exact ⟨rfl, rfl⟩
    · split
      · exact ⟨rfl, rfl⟩
      · split <;> exact ⟨rfl, rfl⟩
  | delta key previous =>
    unfold perform tokensDelta
    dsimp only
    split <;> exact ⟨rfl, rfl⟩
  | didClose | full | fullPartial | range | rangePartial | text | documents | hold | release =>
    exact ⟨rfl, rfl⟩

theorem later_perform (hs : s.Sound) (hkeeps : command.Keeps uri) :
    Later uri s (s.perform command).1 := by
  cases command with
  | didOpen key text =>
    obtain ⟨d, hopens⟩ := s.didOpen_opens key text
    exact .of_eq (hopens.others uri (Ne.symm hkeeps))
  | didChange key changes => exact later_didChange hs key changes
  | didClose key => exact .of_eq (s.documents.get?_remove_of_ne (Ne.symm hkeeps))
  | delta key previous => exact later_tokensDelta hs key previous
  | hold =>
    exact later_map (fun d => { d with content := d.content.hold }) rfl fun d =>
      ⟨rfl, d.content.later_hold⟩
  | release =>
    exact later_map (fun d => { d with content := d.content.release s.tokenizer }) rfl fun d =>
      ⟨rfl, d.content.later_release⟩
  | full | fullPartial | range | rangePartial | text | documents => exact .of_eq rfl

/-! ### Runs -/

theorem Later.trans {u : Server} (h : Later uri s t) (h' : Later uri t u)
    (htokenizer : t.tokenizer = s.tokenizer) : Later uri s u := by
  unfold Later at h h' ⊢
  rw [htokenizer] at h'
  generalize s.documents.get? uri = first at h ⊢
  generalize t.documents.get? uri = middle at h h'
  generalize u.documents.get? uri = last at h' ⊢
  cases h with
  | none =>
    cases h' with
    | none => exact .none
  | some hfirst =>
    cases h' with
    | some hlast => exact .some (hfirst.trans hlast)

/-- The document before a document that is open some calls later. -/
theorem Later.before {d' : Document} (h : Later uri s t) (hd : t.documents.get? uri = some d') :
    ∃ d, s.documents.get? uri = some d ∧ d.Later s.tokenizer d' := by
  rw [Later, hd] at h
  cases hs : s.documents.get? uri with
  | none => rw [hs] at h; cases h
  | some d =>
    rw [hs] at h
    cases h with
    | some hlater => exact ⟨d, rfl, hlater⟩

/-- The document that a document has become some calls later. -/
theorem Later.after {d : Document} (h : Later uri s t) (hd : s.documents.get? uri = some d) :
    ∃ d', t.documents.get? uri = some d' ∧ d.Later s.tokenizer d' := by
  rw [Later, hd] at h
  cases ht : t.documents.get? uri with
  | none => rw [ht] at h; cases h
  | some d' =>
    rw [ht] at h
    cases h with
    | some hlater => exact ⟨d', rfl, hlater⟩

theorem Later.stands {d : Document} (h : Later uri s t) (hs : s.Sound)
    (hd : t.documents.get? uri = some d) : d.Stands s.tokenizer uri := by
  obtain ⟨before, hget, hlater⟩ := h.before hd
  exact (hs uri before hget).later hlater

theorem sound_start (tokenizer : Tokenizer) (options : ServerOptions) :
    (start tokenizer options).Sound := by
  intro uri d hd
  cases hd

theorem Sound.perform (hs : s.Sound) (command : Command) : (s.perform command).1.Sound := by
  intro uri d hd
  rw [(s.perform_eq command).1]
  by_cases hkeeps : command.Keeps uri
  · exact (later_perform hs hkeeps).stands hs hd
  · cases command with
    | didOpen key text =>
      obtain rfl : key = uri := Classical.not_not.mp hkeeps
      obtain ⟨opened, hopens⟩ := s.didOpen_opens key text
      obtain rfl : opened = d := Option.some.inj (hopens.found.symm.trans hd)
      exact hopens.stands
    | didClose key =>
      obtain rfl : key = uri := Classical.not_not.mp hkeeps
      rw [show (s.perform (.didClose key)).1.documents.get? key = none from
        s.documents.get?_remove_self key] at hd
      cases hd
    | didChange | full | fullPartial | range | rangePartial | delta | text | documents | hold
      | release => exact absurd trivial hkeeps

theorem later_settle (hs : s.Sound) {key : String} {d : Document}
    (hd : s.documents.get? key = some d) : Later uri s (s.settle d) :=
  later_put hs hd ⟨rfl, d.content.later_step⟩

theorem Sound.settle (hs : s.Sound) {key : String} {d : Document}
    (hd : s.documents.get? key = some d) : (s.settle d).Sound :=
  fun _ _ hget => (later_settle hs hd).stands hs hget

theorem Runs.sound (h : Runs permitted s t) (hs : s.Sound) :
    t.Sound ∧ t.tokenizer = s.tokenizer ∧ t.options = s.options := by
  induction h with
  | start => exact ⟨hs, rfl, rfl⟩
  | perform command _ _ ih =>
    obtain ⟨hsound, htokenizer, hoptions⟩ := ih
    exact ⟨hsound.perform command, (perform_eq _ command).1.trans htokenizer,
      (perform_eq _ command).2.trans hoptions⟩
  | settle key d _ hd ih =>
    obtain ⟨hsound, htokenizer, hoptions⟩ := ih
    exact ⟨hsound.settle hd, htokenizer, hoptions⟩

/-- A document that no command opens or closes stays open. -/
theorem Runs.later (h : Runs (Command.Keeps uri) s t) (hs : s.Sound) : Later uri s t := by
  induction h with
  | start => exact .of_eq rfl
  | perform command hran hkeeps ih =>
    obtain ⟨hsound, htokenizer, -⟩ := hran.sound hs
    exact ih.trans (later_perform hsound hkeeps) htokenizer
  | settle key d hran hd ih =>
    obtain ⟨hsound, htokenizer, -⟩ := hran.sound hs
    exact ih.trans (later_settle hsound hd) htokenizer

end Server

end LineTokens
