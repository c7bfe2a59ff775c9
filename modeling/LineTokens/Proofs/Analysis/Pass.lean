import LineTokens.Analysis.Analyzer
import LineTokens.Proofs.Buffer.Apply
import LineTokens.Proofs.Token.Slots

/-! What a pass comes to if nothing stops it. `Pass.finish` enters the tokens of all lines left; its
table has new tokens on these lines and the old ones elsewhere, and its entries lead from the old
table to the new one. -/

namespace LineTokens

/-! ### Tables of the tokens of lines -/

/-- The table has one slot for each line, with the token of the line's number and text. -/
structure TokenTable.Tokenizes (tokenizer : Tokenizer) (table : TokenTable)
    (lines : List (List Char)) : Prop where
  canonical : table.Canonical
  size_eq : table.size = lines.length
  get?_eq : ∀ line text, lines[line]? = some text → table.get? line = tokenizer line text

namespace TokenTable

namespace Tokenizes

variable {tokenizer : Tokenizer} {table table' : TokenTable} {lines : List (List Char)}

theorem slots_eq (h : table.Tokenizes tokenizer lines) : table.slots = lines.mapIdx tokenizer := by
  refine List.ext_getElem? fun line => ?_
  rw [List.getElem?_mapIdx]
  by_cases hline : line < lines.length
  · rw [h.canonical.getElem?_slots (h.size_eq ▸ hline), List.getElem?_eq_getElem hline,
      h.get?_eq line _ (List.getElem?_eq_getElem hline)]
    rfl
  · rw [List.getElem?_eq_none (by rw [← h.canonical.size_eq, h.size_eq]; omega),
      List.getElem?_eq_none (by omega)]
    rfl

/-- Lines have only one table of their tokens. -/
theorem unique (h : table.Tokenizes tokenizer lines) (h' : table'.Tokenizes tokenizer lines) :
    table = table' :=
  h.canonical.ext h'.canonical (h.slots_eq.trans h'.slots_eq.symm)

theorem empty : TokenTable.empty.Tokenizes tokenizer [] :=
  ⟨canonical_empty, rfl, by simp⟩

end Tokenizes

end TokenTable

/-- The tokens of lines, with those that entries give put in place one after the other. -/
def overlay (entries : List PatchEntry) (tokens : Nat → Option Token) : Nat → Option Token :=
  entries.foldl
    (fun tokens entry line => if line = entry.line then entry.tokens.head? else tokens line)
    tokens

theorem overlay_concat (entries : List PatchEntry) (entry : PatchEntry)
    (tokens : Nat → Option Token) (line : Nat) :
    overlay (entries ++ [entry]) tokens line =
      if line = entry.line then entry.tokens.head? else overlay entries tokens line := by
  rw [overlay, List.foldl_append]
  rfl

theorem overlay_of_notMem {entries : List PatchEntry} {line : Nat}
    (h : line ∉ entries.map (·.line)) (tokens : Nat → Option Token) :
    overlay entries tokens line = tokens line := by
  induction entries generalizing tokens with
  | nil => rfl
  | cons entry rest ih =>
    rw [List.map_cons, List.mem_cons, not_or] at h
    exact (ih h.2 _).trans (if_neg h.1)

theorem Snapshot.lt_of_line? {s : Snapshot} {line : Nat} {text : List Char}
    (h : s.line? line = some text) : line < s.lineCount := by
  by_contra hge
  rw [line?, lineBounds?, FlatText.lineBounds?, if_pos (by omega)] at h
  cases h

namespace Pass

variable {tokenizer : Tokenizer} {pass : Pass}

/-- A look at a line: if the snapshot has it, its new token is entered. -/
def look (tokenizer : Tokenizer) (pass : Pass) (line : Nat) : Pass :=
  match pass.snapshot.line? line with
  | none => pass
  | some text => pass.enter line (tokenizer line text)

/-- The pass after a look at every line left. -/
def finish (tokenizer : Tokenizer) (pass : Pass) : Pass :=
  pass.left.foldl (look tokenizer) { pass with left := [] }

theorem finish_of_nil (h : pass.left = []) : pass.finish tokenizer = pass := by
  rw [finish, h]
  cases pass
  cases h
  rfl

theorem finish_of_missing {line : Nat} {left : List Nat} (h : pass.left = line :: left)
    (hline : pass.snapshot.line? line = none) :
    pass.finish tokenizer = { pass with left }.finish tokenizer := by
  rw [finish, h, List.foldl_cons, look]
  simp only [hline]
  rfl

theorem finish_of_present {line : Nat} {left : List Nat} {text : List Char}
    (h : pass.left = line :: left) (hline : pass.snapshot.line? line = some text) :
    pass.finish tokenizer =
      ({ pass with left }.enter line (tokenizer line text)).finish tokenizer := by
  rw [finish, h, List.foldl_cons, look]
  simp only [hline]
  rfl

theorem look_eq (pass : Pass) (line : Nat) : (pass.look tokenizer line).base = pass.base ∧
    (pass.look tokenizer line).snapshot = pass.snapshot := by
  unfold look
  split <;> exact ⟨rfl, rfl⟩

/-- A pass keeps what it was started on. -/
theorem finish_eq (pass : Pass) : (pass.finish tokenizer).base = pass.base ∧
    (pass.finish tokenizer).snapshot = pass.snapshot := by
  have hfold : ∀ (lines : List Nat) (p : Pass), (lines.foldl (look tokenizer) p).base = p.base ∧
      (lines.foldl (look tokenizer) p).snapshot = p.snapshot := by
    intro lines
    induction lines with
    | nil => exact fun p => ⟨rfl, rfl⟩
    | cons line lines ih =>
      intro p
      obtain ⟨hbase, hsnapshot⟩ := ih (p.look tokenizer line)
      exact ⟨hbase.trans (p.look_eq line).1, hsnapshot.trans (p.look_eq line).2⟩
  exact hfold pass.left { pass with left := [] }

/-- The table has canonical chunks and a slot for each line of the snapshot. -/
structure Roomy (pass : Pass) : Prop where
  canonical : pass.table.Canonical
  lineCount_le : pass.snapshot.lineCount ≤ pass.table.size

theorem Roomy.start (consumed flag : Nat) (snapshot : Snapshot) {base : AnalysisResult}
    (lines : LineSet) (h : base.table.Canonical) :
    (Pass.start consumed flag snapshot base lines).Roomy :=
  ⟨h.ensureLines _, by
    show snapshot.lineCount ≤ (base.table.ensureLines snapshot.lineCount).size
    rw [h.size_ensureLines]
    exact Nat.le_max_right _ _⟩

theorem Roomy.enter (h : pass.Roomy) {line : Nat} {text : List Char}
    (hline : pass.snapshot.line? line = some text) (token : Option Token) :
    (pass.enter line token).Roomy ∧ (pass.enter line token).table.size = pass.table.size := by
  have hlt : line < pass.table.size :=
    Nat.lt_of_lt_of_le (Snapshot.lt_of_line? hline) h.lineCount_le
  have hsize := h.canonical.size_set hlt token
  exact ⟨⟨(h.canonical.set line token).1, hsize.symm ▸ h.lineCount_le⟩, hsize⟩

/-- Tokens that are new for the lines looked at and those of `tokens` elsewhere. -/
def retoken (tokenizer : Tokenizer) (snapshot : Snapshot) (lines : List Nat)
    (tokens : Nat → Option Token) (line : Nat) : Option Token :=
  if line ∈ lines then
    match snapshot.line? line with
    | some text => tokenizer line text
    | none => tokens line
  else tokens line

theorem retoken_of_missing {snapshot : Snapshot} {line : Nat} (lines : List Nat)
    (tokens : Nat → Option Token) (hline : snapshot.line? line = none) :
    retoken tokenizer snapshot lines tokens =
      retoken tokenizer snapshot (line :: lines) tokens := by
  funext other
  simp only [retoken, List.mem_cons]
  by_cases hother : other = line
  · subst hother
    simp [hline]
  · simp [hother]

theorem retoken_of_present {snapshot : Snapshot} {line : Nat} {text : List Char}
    (lines : List Nat) (tokens : Nat → Option Token) (hline : snapshot.line? line = some text) :
    retoken tokenizer snapshot lines
        (fun other => if other = line then tokenizer line text else tokens other) =
      retoken tokenizer snapshot (line :: lines) tokens := by
  funext other
  simp only [retoken, List.mem_cons]
  by_cases hother : other = line
  · subst hother
    simp [hline]
  · simp [hother]

/-- What a finished pass has kept of the pass, and what it has changed. -/
structure FinishedFrom (tokenizer : Tokenizer) (pass done : Pass) : Prop where
  roomy : done.Roomy
  size_eq : done.table.size = pass.table.size
  get?_eq : done.table.get? = retoken tokenizer pass.snapshot pass.left pass.table.get?
  overlay_eq : ∀ tokens, overlay pass.entries tokens = pass.table.get? →
    overlay done.entries tokens = done.table.get?
  entries_new : ∀ entry ∈ done.entries, entry ∈ pass.entries ∨ entry.line ∈ pass.left ∧
    ∃ text, pass.snapshot.line? entry.line = some text ∧
      entry.tokens = (tokenizer entry.line text).toList

theorem overlay_enter {line : Nat} {token : Option Token} {tokens : Nat → Option Token}
    (h : pass.Roomy) (hline : line < pass.table.size)
    (heq : overlay pass.entries tokens = pass.table.get?) :
    overlay (pass.enter line token).entries tokens = (pass.enter line token).table.get? := by
  funext other
  show overlay (pass.entries ++ [_]) tokens other = (pass.table.set line token).get? other
  rw [overlay_concat, h.canonical.get?_set hline, heq]
  cases token <;> rfl

theorem Roomy.finish (h : pass.Roomy) : FinishedFrom tokenizer pass (pass.finish tokenizer) := by
  generalize hleft : pass.left = left
  induction left generalizing pass with
  | nil =>
    rw [finish_of_nil hleft]
    refine ⟨h, rfl, ?_, fun _ heq => heq, fun _ hmem => .inl hmem⟩
    funext line
    simp [retoken, hleft]
  | cons line left ih =>
    have hroomy : Roomy { pass with left } := ⟨h.canonical, h.lineCount_le⟩
    cases hline : pass.snapshot.line? line with
    | none =>
      rw [finish_of_missing hleft hline]
      have hrest := ih hroomy rfl
      refine ⟨hrest.roomy, hrest.size_eq, ?_, hrest.overlay_eq, fun entry hmem => ?_⟩
      · rw [hrest.get?_eq, hleft]
        exact retoken_of_missing left _ hline
      · refine (hrest.entries_new entry hmem).imp_right fun ⟨hin, htext⟩ => ⟨?_, htext⟩
        rw [hleft]
        exact List.mem_cons_of_mem _ hin
    | some text =>
      rw [finish_of_present hleft hline]
      have hlt : line < pass.table.size :=
        Nat.lt_of_lt_of_le (Snapshot.lt_of_line? hline) h.lineCount_le
      obtain ⟨hentered, hsize⟩ := hroomy.enter hline (tokenizer line text)
      have hrest := ih hentered rfl
      refine ⟨hrest.roomy, hrest.size_eq.trans hsize, ?_,
        fun tokens heq => hrest.overlay_eq tokens (overlay_enter hroomy hlt heq),
        fun entry hmem => ?_⟩
      · have hset : (pass.table.set line (tokenizer line text)).get? =
            fun other => if other = line then tokenizer line text else pass.table.get? other :=
          funext (h.canonical.get?_set hlt _)
        rw [hrest.get?_eq, hleft, ← retoken_of_present left _ hline, ← hset]
        rfl
      · rw [hleft]
        rcases hrest.entries_new entry hmem with hold | ⟨hin, htext⟩
        · rcases List.mem_append.mp hold with hold | hnew
          · exact .inl hold
          · obtain rfl := List.mem_singleton.mp hnew
            exact .inr ⟨List.mem_cons_self, text, hline, rfl⟩
        · exact .inr ⟨List.mem_cons_of_mem _ hin, htext⟩

/-- A pass has an entry for each line left that the snapshot has, in their order, and it replaces a
slot if the table before had one for its line. -/
theorem finish_entries (tokenizer : Tokenizer) (pass : Pass) : ∃ added,
    (pass.finish tokenizer).entries = pass.entries ++ added ∧
    added.map (·.line) = pass.left.filter (fun line => (pass.snapshot.line? line).isSome) ∧
    ∀ entry ∈ added, entry.replacedLines = if entry.line < pass.base.table.size then 1 else 0 := by
  generalize hleft : pass.left = left
  induction left generalizing pass with
  | nil =>
    rw [finish_of_nil hleft]
    exact ⟨[], (List.append_nil _).symm, rfl, by simp⟩
  | cons line left ih =>
    cases hline : pass.snapshot.line? line with
    | none =>
      rw [finish_of_missing hleft hline, List.filter_cons_of_neg (by rw [hline]; simp)]
      exact ih { pass with left } rfl
    | some text =>
      rw [finish_of_present hleft hline, List.filter_cons_of_pos (by rw [hline]; rfl)]
      obtain ⟨added, hentries, hlines, hreplaced⟩ :=
        ih ({ pass with left }.enter line (tokenizer line text)) rfl
      refine ⟨_ :: added, hentries.trans (List.append_assoc ..), congrArg (line :: ·) hlines, ?_⟩
      intro entry hentry
      rcases List.mem_cons.mp hentry with rfl | hentry
      · rfl
      · exact hreplaced entry hentry

end Pass

/-! ### Completed passes -/

/-- The patch leads from one published result to the next. -/
structure Patch.Leads (patch : Patch) (before after : AnalysisResult) : Prop where
  version_eq : after.version = before.version + 1
  patch_version_eq : patch.version = after.version
  overlay_eq : overlay patch.entries before.table.get? = after.table.get?
  entries_new : ∀ entry ∈ patch.entries,
    entry.line < after.table.size ∧ entry.tokens = (after.table.get? entry.line).toList
  ascending : (patch.entries.map (·.line)).Pairwise (· < ·)
  replacedLines_eq : ∀ entry ∈ patch.entries,
    entry.replacedLines = if entry.line < before.table.size then 1 else 0

/-- A pass over `lines` on top of `base`, with no look at its flag. -/
def AnalysisResult.complete (tokenizer : Tokenizer) (base : AnalysisResult) (snapshot : Snapshot)
    (lines : LineSet) (consumed flag : Nat) : Pass :=
  (Pass.start consumed flag snapshot base lines).finish tokenizer

namespace AnalysisResult

variable {tokenizer : Tokenizer} {base : AnalysisResult} {snapshot : Snapshot} {lines : LineSet}
  {consumed flag : Nat}

theorem finishedFrom_start (h : base.table.Canonical) :
    Pass.FinishedFrom tokenizer (.start consumed flag snapshot base lines)
      (base.complete tokenizer snapshot lines consumed flag) :=
  (Pass.Roomy.start consumed flag snapshot lines h).finish

theorem version_complete : (base.complete tokenizer snapshot lines consumed flag).result.version =
    base.version + 1 :=
  congrArg (·.version + 1) (Pass.finish_eq (.start consumed flag snapshot base lines)).1

theorem snapshotVersion_complete :
    (base.complete tokenizer snapshot lines consumed flag).result.snapshotVersion =
      snapshot.version :=
  congrArg Snapshot.version (Pass.finish_eq (.start consumed flag snapshot base lines)).2

theorem size_complete (h : base.table.Canonical) :
    (base.complete tokenizer snapshot lines consumed flag).table.size =
      max base.table.size snapshot.lineCount :=
  (finishedFrom_start h).size_eq.trans (h.size_ensureLines _)

theorem get?_complete (h : base.table.Canonical) :
    (base.complete tokenizer snapshot lines consumed flag).table.get? =
      Pass.retoken tokenizer snapshot lines.lines base.table.get? := by
  rw [(finishedFrom_start h).get?_eq]
  exact congrArg _ (funext (h.get?_ensureLines _))

/-- A completed pass has an entry for each of its lines that the snapshot has. -/
theorem lines_complete :
    (base.complete tokenizer snapshot lines consumed flag).patch.entries.map (·.line) =
      lines.lines.filter fun line => (snapshot.line? line).isSome := by
  obtain ⟨added, hentries, hlines, -⟩ :=
    Pass.finish_entries tokenizer (.start consumed flag snapshot base lines)
  have hadded : (base.complete tokenizer snapshot lines consumed flag).patch.entries = added :=
    hentries
  rw [hadded]
  exact hlines

theorem leads_complete (h : base.table.Canonical) :
    (base.complete tokenizer snapshot lines consumed flag).patch.Leads base
      (base.complete tokenizer snapshot lines consumed flag).result := by
  have hdone : Pass.FinishedFrom tokenizer (.start consumed flag snapshot base lines)
      (base.complete tokenizer snapshot lines consumed flag) := finishedFrom_start h
  obtain ⟨added, hentries, -, hreplaced⟩ :=
    Pass.finish_entries tokenizer (.start consumed flag snapshot base lines)
  have hadded : (base.complete tokenizer snapshot lines consumed flag).patch.entries = added :=
    hentries
  refine ⟨version_complete, rfl, ?_, fun entry hmem => ?_, ?_, hadded ▸ hreplaced⟩
  · exact hdone.overlay_eq _ (funext fun line => (h.get?_ensureLines _ line).symm)
  · rcases hdone.entries_new entry hmem with hold | ⟨hin, text, hline, htokens⟩
    · exact absurd hold List.not_mem_nil
    · refine ⟨?_, ?_⟩
      · show entry.line < (base.complete tokenizer snapshot lines consumed flag).table.size
        rw [size_complete h]
        exact Nat.lt_of_lt_of_le (Snapshot.lt_of_line? hline) (Nat.le_max_right _ _)
      · have hget : (base.complete tokenizer snapshot lines consumed flag).table.get? entry.line =
            Pass.retoken tokenizer snapshot lines.lines base.table.get? entry.line :=
          congrFun (get?_complete h) entry.line
        have hline' : snapshot.line? entry.line = some text := hline
        have hin' : entry.line ∈ lines.lines := hin
        rw [Pass.retoken, if_pos hin', hline'] at hget
        rw [htokens]
        exact congrArg _ hget.symm
  · rw [lines_complete]
    exact lines.ascending.filter _

/-- A pass over lines that hold all that changed since `base` makes the table of the snapshot's
lines. -/
theorem tokenizes_complete {before : List (List Char)} (h : base.table.Tokenizes tokenizer before)
    (hwell : snapshot.WellFormed) (hframe : LineFrame lines before snapshot.lines) :
    (base.complete tokenizer snapshot lines consumed flag).table.Tokenizes tokenizer
      snapshot.lines := by
  refine ⟨(finishedFrom_start h.canonical).roomy.canonical, ?_, fun line text hline => ?_⟩
  · have := hframe.length_le
    rw [size_complete h.canonical, h.size_eq, hwell.length_lines, ← hwell.length_lines]
    omega
  · rw [get?_complete h.canonical, Pass.retoken, hwell.line?_eq, hline]
    split
    · rfl
    · rename_i hout
      exact h.get?_eq line text ((hframe.same line hout).symm.trans hline)

end AnalysisResult

end LineTokens
