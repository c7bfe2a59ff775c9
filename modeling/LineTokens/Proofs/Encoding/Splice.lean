import LineTokens.Proofs.Encoding.Decode

/-! Edits of a patch as splices. An edit is addressed by five words for each line before its line,
so it meets the record of its line in any data that has one record for each line with a token, in
order, as long as no line before without a token is followed by one with a token. What it puts there
is encoded by itself, while a record of the data tells the distance from the token before it. So the
edits lead to the data of the table after if its edited lines have no tokens before them but on line
0 and the distances of all others are those of the table before, and not otherwise. -/

namespace LineTokens

namespace Encoding

/-! ### Data line by line -/

/-- Where the token before a line is. Without one it is the place from which every unit starts. -/
def placeBefore (tokens : Nat → Option Token) : Nat → Nat × Nat
  | 0 => (0, 0)
  | line + 1 =>
    match tokens line with
    | some token => (token.line, token.start)
    | none => placeBefore tokens line

/-- The line of the token before a line, or 0. -/
def lineBefore (tokens : Nat → Option Token) (line : Nat) : Nat := (placeBefore tokens line).1

/-- The record of a line in the data of all tokens. -/
def packedRecord (tokens : Nat → Option Token) (line : Nat) : List UInt32 :=
  encodeFrom (placeBefore tokens line).1 (placeBefore tokens line).2 (tokens line).toList

/-- The number of a line is that of its record, as all lines up to it have tokens. Or no record is
left from it on. -/
def Aligned (tokens : Nat → Option Token) (line : Nat) : Prop :=
  (∀ other ≤ line, tokens other ≠ none) ∨ ∀ other ≥ line, tokens other = none

/-- A line with a token has a record, and one without has no data. -/
def HasRecords (tokens : Nat → Option Token) (data : Nat → List UInt32) : Prop :=
  ∀ line, (data line).length = recordWidth * (tokens line).toList.length

variable {tokens : Nat → Option Token} {data after : Nat → List UInt32}

theorem hasRecords_packedRecord (tokens : Nat → Option Token) :
    HasRecords tokens (packedRecord tokens) :=
  fun _ => length_encodeFrom _ _ _

/-- The data of all tokens, taken apart by lines. -/
theorem encodeFrom_filterMap (tokens : Nat → Option Token) (line count : Nat) :
    encodeFrom (placeBefore tokens line).1 (placeBefore tokens line).2
        ((List.range' line count).filterMap tokens) =
      (List.range' line count).flatMap (packedRecord tokens) := by
  induction count generalizing line with
  | zero => rfl
  | succ count ih =>
    have hrest := ih (line + 1)
    rw [List.range'_succ, List.flatMap_cons, ← hrest, packedRecord, placeBefore]
    cases hline : tokens line with
    | none =>
      rw [List.filterMap_cons_none hline]
      rfl
    | some token =>
      rw [List.filterMap_cons_some hline]
      rfl

/-- The data before a line, on it and after it. -/
theorem flatMap_range'_split (data : Nat → List UInt32) (line kept more : Nat) :
    (List.range' line (kept + (1 + more))).flatMap data = (List.range' line kept).flatMap data ++
      (data (line + kept) ++ (List.range' (line + kept + 1) more).flatMap data) := by
  rw [← List.range'_append_1, List.flatMap_append, Nat.add_comm 1 more, List.range'_succ,
    List.flatMap_cons]

/-- Lines with data of the same lengths have the same data altogether only if each has the same
data. -/
theorem flatMap_eq_iff {lines : List Nat}
    (h : ∀ line ∈ lines, (after line).length = (data line).length) :
    lines.flatMap after = lines.flatMap data ↔ ∀ line ∈ lines, after line = data line := by
  refine ⟨fun hsame => ?_, fun hsame => ?_⟩
  · induction lines with
    | nil => exact fun _ hline => absurd hline List.not_mem_nil
    | cons first rest ih =>
      rw [List.flatMap_cons, List.flatMap_cons] at hsame
      obtain ⟨hfirst, hrest⟩ := List.append_inj hsame (h first List.mem_cons_self)
      rw [List.forall_mem_cons]
      exact ⟨hfirst, ih (fun line hline => h line (List.mem_cons_of_mem _ hline)) hrest⟩
  · rw [List.flatMap_def, List.flatMap_def, List.map_congr_left hsame]

namespace HasRecords

theorem eq_nil (h : HasRecords tokens data) {line : Nat} (hline : tokens line = none) :
    data line = [] := by
  have hlength := h line
  rw [hline] at hlength
  exact List.length_eq_zero_iff.mp hlength

theorem flatMap_eq_nil (h : HasRecords tokens data) {lines : List Nat}
    (hnone : ∀ line ∈ lines, tokens line = none) : lines.flatMap data = [] :=
  List.flatMap_eq_nil_iff.mpr fun line hline => h.eq_nil (hnone line hline)

theorem length_flatMap_le (h : HasRecords tokens data) (lines : List Nat) :
    (lines.flatMap data).length ≤ recordWidth * lines.length := by
  induction lines with
  | nil => exact Nat.zero_le _
  | cons line lines ih =>
    have hone : (tokens line).toList.length ≤ 1 := by cases tokens line <;> simp
    have := Nat.mul_le_mul_left recordWidth hone
    rw [List.flatMap_cons, List.length_append, h line, List.length_cons, Nat.mul_succ]
    omega

/-- Lines that all have a token have a record each. -/
theorem length_flatMap (h : HasRecords tokens data) {lines : List Nat}
    (hsome : ∀ line ∈ lines, tokens line ≠ none) :
    (lines.flatMap data).length = recordWidth * lines.length := by
  induction lines with
  | nil => rfl
  | cons line lines ih =>
    obtain ⟨token, htoken⟩ := Option.ne_none_iff_exists'.mp (hsome line List.mem_cons_self)
    rw [List.flatMap_cons, List.length_append, h line, htoken,
      ih fun other hother => hsome other (List.mem_cons_of_mem _ hother), List.length_cons,
      Nat.mul_succ, Nat.add_comm]
    rfl

/-- Lines past the end of a table have no records. -/
theorem flatMap_past (h : HasRecords tokens data) {size line : Nat}
    (hsize : ∀ other ≥ size, tokens other = none) (hline : size ≤ line) (count : Nat) :
    (List.range' line count).flatMap data = [] :=
  h.flatMap_eq_nil fun other hother =>
    hsize other (Nat.le_trans hline (List.mem_range'_1.mp hother).1)

/-- The records of some lines take their full place, or the lines after them have none. -/
theorem split_flatMap (h : HasRecords tokens data) (line count more : Nat)
    (hplace : (∀ other < line + count, tokens other ≠ none) ∨
      ∀ other ≥ line + count, tokens other = none) :
    ((List.range' line (count + more)).flatMap data).take (recordWidth * count) =
        (List.range' line count).flatMap data ∧
      ((List.range' line (count + more)).flatMap data).drop (recordWidth * count) =
        (List.range' (line + count) more).flatMap data := by
  rw [← List.range'_append_1, List.flatMap_append]
  rcases hplace with hsome | hnone
  · have hlength := h.length_flatMap fun other hother =>
      hsome other (List.mem_range'_1.mp hother).2
    rw [List.length_range'] at hlength
    rw [← hlength]
    exact ⟨List.take_left, List.drop_left⟩
  · have hle := h.length_flatMap_le (List.range' line count)
    rw [List.length_range'] at hle
    rw [h.flatMap_past hnone (Nat.le_refl _), List.append_nil]
    exact ⟨List.take_of_length_le hle, List.drop_eq_nil_of_le hle⟩

end HasRecords

/-! ### Edits -/

/-- What the edit of an entry replaces: the record of its line, if the table before had the line. -/
theorem encodeEntry_bounds {entry : PatchEntry} {size : Nat}
    (hline : entry.line * recordWidth < UInt32.size)
    (hreplaced : entry.replacedLines = if entry.line < size then 1 else 0) :
    (encodeEntry entry).start.toNat = recordWidth * entry.line ∧
      (encodeEntry entry).start.toNat + (encodeEntry entry).deleteCount.toNat =
        recordWidth * (entry.line + if entry.line < size then 1 else 0) := by
  have hcount : entry.replacedLines * recordWidth < UInt32.size := by
    rw [hreplaced]
    split <;> decide
  have hstart : (encodeEntry entry).start.toNat = recordWidth * entry.line := by
    rw [encodeEntry, clamp_toNat hline, Nat.mul_comm]
  have hdelete : (encodeEntry entry).deleteCount.toNat = entry.replacedLines * recordWidth := by
    rw [encodeEntry, clamp_toNat hcount]
  refine ⟨hstart, ?_⟩
  rw [hstart, hdelete, hreplaced, Nat.mul_add, Nat.mul_comm recordWidth (ite _ _ _)]

theorem spliceFrom_cons (offset : Nat) (data : List UInt32) (edit : TokensEdit)
    (rest : List TokensEdit) :
    TokensEdit.spliceFrom offset data (edit :: rest) =
      data.take (edit.start.toNat - offset) ++ edit.data ++
        TokensEdit.spliceFrom (edit.start.toNat + edit.deleteCount.toNat)
          (data.drop (edit.start.toNat + edit.deleteCount.toNat - offset)) rest :=
  rfl

/-- The data before and after the record of an aligned line. Either nothing is left after it, or the
record is there and takes its full place. -/
theorem HasRecords.around_line (h : HasRecords tokens data) {size : Nat}
    (hsize : ∀ other ≥ size, tokens other = none) {line kept more offset : Nat}
    (haligned : Aligned tokens (line + kept))
    (hoffset : offset = recordWidth * line ∨
      (List.range' line (kept + (1 + more))).flatMap data = []) :
    let all := (List.range' line (kept + (1 + more))).flatMap data
    let stop := recordWidth * (line + kept + if line + kept < size then 1 else 0)
    let rest := (List.range' (line + kept + 1) more).flatMap data
    all.take (recordWidth * (line + kept) - offset) = (List.range' line kept).flatMap data ∧
      all.drop (stop - offset) = rest ∧
      (stop = recordWidth * (line + kept + 1) ∨ rest = []) := by
  intro all stop rest
  rcases hoffset with rfl | hnil
  · have hstart : recordWidth * (line + kept) - recordWidth * line = recordWidth * kept := by
      rw [Nat.mul_add, Nat.add_sub_cancel_left]
    obtain ⟨htake, hdrop⟩ := h.split_flatMap line kept (1 + more) <|
      haligned.imp_left fun hsome other hlt => hsome other (Nat.le_of_lt hlt)
    refine ⟨hstart ▸ htake, ?_⟩
    by_cases hlt : line + kept < size
    · have hstop : stop = recordWidth * (line + kept + 1) :=
        congrArg (fun replaced => recordWidth * (line + kept + replaced)) (if_pos hlt)
      have hcount : stop - recordWidth * line = recordWidth * (kept + 1) := by
        rw [hstop, Nat.add_assoc, Nat.mul_add, Nat.add_sub_cancel_left]
      obtain ⟨-, hdrop⟩ := h.split_flatMap line (kept + 1) more <|
        haligned.imp (fun hsome other hlt => hsome other (Nat.le_of_lt_succ hlt))
          fun hnone other hge => hnone other (Nat.le_of_succ_le hge)
      rw [Nat.add_assoc] at hdrop
      exact ⟨hcount ▸ hdrop, .inl hstop⟩
    · -- The line is appended: neither it nor a line after it has a record.
      have hstop : stop - recordWidth * line = recordWidth * kept := by
        rw [← hstart]
        show recordWidth * (line + kept + if line + kept < size then 1 else 0) - _ = _
        rw [if_neg hlt, Nat.add_zero]
      have hle : size ≤ line + kept := Nat.le_of_not_lt hlt
      have hnil : rest = [] := h.flatMap_past hsize (Nat.le_succ_of_le hle) more
      rw [h.flatMap_past hsize hle] at hdrop
      exact ⟨hstop ▸ hdrop.trans hnil.symm, .inr hnil⟩
  · have hparts := (flatMap_range'_split data line kept more).symm.trans hnil
    rw [List.append_eq_nil_iff, List.append_eq_nil_iff] at hparts
    obtain ⟨hkept, -, hrest⟩ := hparts
    have hnil : all = [] := hnil
    rw [hnil, hkept, show rest = [] from hrest]
    exact ⟨List.take_nil, List.drop_nil, .inr rfl⟩

/-- An entry whose edit can be done on data of a table of `size` lines, and leaves the data `after`
on its line. -/
structure Splices (tokens : Nat → Option Token) (size : Nat) (after : Nat → List UInt32)
    (entry : PatchEntry) : Prop where
  word : entry.line * recordWidth < UInt32.size
  aligned : Aligned tokens entry.line
  data_eq : after entry.line = encodeTokens entry.tokens
  replaced_eq : entry.replacedLines = if entry.line < size then 1 else 0

/-- Edits done on the data of the lines from `line` on. Nothing is left of the data, or `offset` is
where the record of `line` starts. -/
theorem HasRecords.spliceFrom_eq (h : HasRecords tokens data) {size : Nat}
    (hsize : ∀ other ≥ size, tokens other = none) {entries : List PatchEntry}
    {line count offset : Nat}
    (hoffset : offset = recordWidth * line ∨ (List.range' line count).flatMap data = [])
    (hascending : (entries.map (·.line)).Pairwise (· < ·))
    (hentries : ∀ entry ∈ entries, (line ≤ entry.line ∧ entry.line < line + count) ∧
      Splices tokens size after entry)
    (hsame : ∀ other, line ≤ other → other ∉ entries.map (·.line) → after other = data other) :
    TokensEdit.spliceFrom offset ((List.range' line count).flatMap data)
      (entries.map encodeEntry) = (List.range' line count).flatMap after := by
  induction entries generalizing line count offset with
  | nil =>
    refine congrArg List.flatten (List.map_congr_left fun other hother => ?_)
    exact (hsame other (List.mem_range'_1.mp hother).1 List.not_mem_nil).symm
  | cons entry rest ih =>
    obtain ⟨⟨hle, hlt⟩, hsplices⟩ := hentries entry List.mem_cons_self
    rw [List.map_cons, List.pairwise_cons] at hascending
    obtain ⟨hstart, hstop⟩ := encodeEntry_bounds hsplices.word hsplices.replaced_eq
    obtain ⟨kept, hkept⟩ : ∃ kept, entry.line = line + kept := ⟨entry.line - line, by omega⟩
    obtain ⟨more, rfl⟩ : ∃ more, count = kept + (1 + more) := ⟨count - kept - 1, by omega⟩
    rw [hkept] at hstart hstop
    obtain ⟨htake, hdrop, hnext⟩ := h.around_line hsize (hkept ▸ hsplices.aligned) hoffset
    have hout : ∀ other ≥ line, other ≠ entry.line → other ∉ rest.map (·.line) →
        after other = data other := fun other hle hne hnotMem =>
      hsame other hle fun hmem => (List.mem_cons.mp hmem).elim hne hnotMem
    have hrest : TokensEdit.spliceFrom
        (recordWidth * (line + kept + if line + kept < size then 1 else 0))
        ((List.range' (line + kept + 1) more).flatMap data) (rest.map encodeEntry) =
          (List.range' (line + kept + 1) more).flatMap after := by
      refine ih hnext hascending.2 (fun other hother => ?_) fun other hle hnotMem =>
        hout other (by omega) (by omega) hnotMem
      obtain ⟨⟨-, hlt⟩, hother'⟩ := hentries other (List.mem_cons_of_mem _ hother)
      have hgt := hascending.1 other.line (List.mem_map_of_mem hother)
      exact ⟨⟨by omega, by omega⟩, hother'⟩
    -- The lines before that of the first entry are not in any entry.
    have hbefore :
        (List.range' line kept).flatMap data = (List.range' line kept).flatMap after := by
      refine congrArg List.flatten (List.map_congr_left fun other hother => ?_)
      rw [List.mem_range'_1] at hother
      refine (hout other hother.1 (by omega) fun hmem => ?_).symm
      have hgt := hascending.1 other hmem
      omega
    have hdata : (encodeEntry entry).data = after (line + kept) := by
      rw [← hkept, hsplices.data_eq]
      rfl
    rw [List.map_cons, spliceFrom_cons, hstop, hstart, htake, hdrop, hrest, hbefore, hdata,
      flatMap_range'_split, List.append_assoc]

/-! ### Tables -/

variable {table : TokenTable}

/-- The data of a table ends with its last line. -/
theorem HasRecords.flatMap_range' (h : HasRecords table.get? data) (hcanonical : table.Canonical)
    {count : Nat} (hcount : table.size ≤ count) :
    (List.range' 0 count).flatMap data = (List.range' 0 table.size).flatMap data := by
  obtain ⟨more, rfl⟩ : ∃ more, count = table.size + more := ⟨count - table.size, by omega⟩
  have hnil : (List.range' (0 + table.size) more).flatMap data = [] :=
    h.flatMap_past (fun _ hline => hcanonical.get?_of_size_le hline)
      (Nat.le_of_eq (Nat.zero_add _).symm) more
  rw [← List.range'_append_1, List.flatMap_append, hnil, List.append_nil]

theorem encodeFull_eq (h : table.Canonical) :
    encodeFull table = (List.range' 0 table.size).flatMap (packedRecord table.get?) := by
  rw [encodeFull, TokenTable.tokens, h.slots_eq_map, List.filterMap_map]
  exact encodeFrom_filterMap table.get? 0 table.size

/-- What is on a line once its edit is done: the record of the new token, encoded by itself. A line
without an edit has the record that it had. -/
def splicedRecord (before after : Nat → Option Token) (edited : List Nat) (line : Nat) :
    List UInt32 :=
  if line ∈ edited then encodeTokens (after line).toList else packedRecord before line

/-- The edits leave on each line the record that it has in the data of all tokens after. -/
def RecordsStand (before after : Nat → Option Token) (edited : List Nat) : Prop :=
  ∀ line, packedRecord after line = splicedRecord before after edited line

theorem splicedRecord_nil (before after : Nat → Option Token) :
    splicedRecord before after [] = packedRecord before :=
  funext fun _ => if_neg List.not_mem_nil

theorem recordsStand_nil (tokens : Nat → Option Token) : RecordsStand tokens tokens [] := by
  intro line
  rw [splicedRecord_nil]

/-- Every token names the line that it is on. -/
def OnOwnLines (tokens : Nat → Option Token) : Prop :=
  ∀ line token, tokens line = some token → token.line = line

/-- The token before a line is on an earlier line; there is none before line 0. -/
theorem OnOwnLines.placeBefore_cases (h : OnOwnLines tokens) (line : Nat) :
    (placeBefore tokens line).1 < line ∨ line = 0 ∧ placeBefore tokens line = (0, 0) := by
  induction line with
  | zero => exact .inr ⟨rfl, rfl⟩
  | succ line ih =>
    refine .inl ?_
    rw [placeBefore]
    split
    · rename_i token hline
      rw [h line token hline]
      exact Nat.lt_succ_self line
    · rcases ih with hlt | ⟨-, hplace⟩
      · exact Nat.lt_succ_of_lt hlt
      · rw [hplace]
        exact Nat.succ_pos line

theorem OnOwnLines.lineBefore_le (h : OnOwnLines tokens) (line : Nat) :
    lineBefore tokens line ≤ line := by
  rcases h.placeBefore_cases line with hlt | ⟨-, hplace⟩
  · exact Nat.le_of_lt hlt
  · rw [lineBefore, hplace]
    exact Nat.zero_le line

/-- A record after a token on an earlier line, or after none, tells the distance to its line. -/
theorem encodeFrom_singleton {token : Token} {line start : Nat}
    (h : line < token.line ∨ token.line = 0 ∧ start = 0) :
    encodeFrom line start [token] =
      [clamp (token.line - line), clamp token.start, clamp token.length, token.kind.typeId, 0] := by
  have hstart : (if token.line - line = 0 then token.start - start else token.start) =
      token.start := by
    rcases h with hlt | ⟨-, rfl⟩
    · exact if_neg (by omega)
    · rw [Nat.sub_zero, ite_self]
  rw [encodeFrom, hstart]
  rfl

theorem OnOwnLines.packedRecord_eq (h : OnOwnLines tokens) {line : Nat} {token : Token}
    (hline : tokens line = some token) : packedRecord tokens line =
      [clamp (line - lineBefore tokens line), clamp token.start, clamp token.length,
        token.kind.typeId, 0] := by
  have hown := h line token hline
  rw [packedRecord, hline, Option.toList_some, encodeFrom_singleton, lineBefore, hown]
  rcases h.placeBefore_cases line with hlt | ⟨hzero, hplace⟩
  · exact .inl (hown ▸ hlt)
  · exact .inr ⟨hown.trans hzero, congrArg Prod.snd hplace⟩

theorem encodeTokens_singleton (token : Token) : encodeTokens [token] =
    [clamp token.line, clamp token.start, clamp token.length, token.kind.typeId, 0] :=
  encodeFrom_singleton (Nat.eq_zero_or_pos token.line |>.symm.imp_right (⟨·, rfl⟩))

theorem clamp_inj {m n : Nat} (hm : m < UInt32.size) (hn : n < UInt32.size) :
    clamp m = clamp n ↔ m = n := by
  rw [← UInt32.toNat_inj, clamp_toNat hm, clamp_toNat hn]

/-- Records stand if the distances that they tell are right: an edited line has no token before it
but on line 0, and any other line has the token before it where it was. -/
theorem recordsStand_iff {before after : Nat → Option Token} {edited : List Nat}
    (hbefore : OnOwnLines before) (hafter : OnOwnLines after)
    (hword : ∀ line token, after line = some token → line < UInt32.size)
    (hsame : ∀ line, line ∉ edited → after line = before line) :
    RecordsStand before after edited ↔ ∀ line token, after line = some token →
      lineBefore after line = if line ∈ edited then 0 else lineBefore before line := by
  refine forall_congr' fun line => ?_
  cases hline : after line with
  | none =>
    have hpacked : packedRecord after line = [] := (hasRecords_packedRecord after).eq_nil hline
    refine iff_of_true ?_ fun _ hsome => by cases hsome
    rw [splicedRecord, hline]
    split
    · exact hpacked
    · rename_i hout
      rw [hpacked, (hasRecords_packedRecord before).eq_nil (hsame line hout ▸ hline)]
  | some token =>
    have hlt := hword line token hline
    have hdistance : splicedRecord before after edited line =
        [clamp (line - if line ∈ edited then 0 else lineBefore before line), clamp token.start,
          clamp token.length, token.kind.typeId, 0] := by
      rw [splicedRecord]
      split
      · rw [hline, Option.toList_some, encodeTokens_singleton, hafter line token hline,
          Nat.sub_zero]
      · rename_i hout
        exact hbefore.packedRecord_eq (hsame line hout ▸ hline)
    have hle : (if line ∈ edited then 0 else lineBefore before line) ≤ line := by
      split
      · exact Nat.zero_le line
      · exact hbefore.lineBefore_le line
    have hle' := hafter.lineBefore_le line
    rw [hdistance, hafter.packedRecord_eq hline, List.cons_eq_cons, and_iff_left rfl,
      clamp_inj (Nat.lt_of_le_of_lt (Nat.sub_le _ _) hlt)
        (Nat.lt_of_le_of_lt (Nat.sub_le _ _) hlt)]
    exact ⟨fun heq _ _ => by omega, fun heq => by rw [heq token rfl]⟩

end Encoding

/-- Every token of a table is on a line. -/
theorem TokenTable.Canonical.mem_tokens_iff {table : TokenTable} (h : table.Canonical)
    {token : Token} : token ∈ table.tokens ↔ ∃ line < table.size, table.get? line = some token := by
  rw [tokens, h.slots_eq_map, List.filterMap_map, List.mem_filterMap]
  refine exists_congr fun line => and_congr_left fun _ => ?_
  rw [List.mem_range'_1, Nat.zero_add]
  exact and_iff_right (Nat.zero_le line)

theorem TokenTable.Tokenizes.onOwnLines {tokenizer : Tokenizer} {table : TokenTable}
    {lines : List (List Char)} (h : table.Tokenizes tokenizer lines)
    (hkeeps : tokenizer.KeepsLine) : Encoding.OnOwnLines table.get? := by
  intro line token htoken
  cases hline : lines[line]? with
  | some text => exact hkeeps line text token ((h.get?_eq line text hline).symm.trans htoken)
  | none =>
    rw [h.canonical.get?_of_size_le (h.size_eq ▸ List.getElem?_eq_none_iff.mp hline)] at htoken
    cases htoken

/-- For tables of lines, records stand if the tokens tell the right distances. -/
theorem TokenTable.Tokenizes.recordsStand_iff {tokenizer : Tokenizer} {before after : TokenTable}
    {lines lines' : List (List Char)} {edited : List Nat} (h : after.Tokenizes tokenizer lines')
    (hkeeps : tokenizer.KeepsLine) (hbefore : before.Tokenizes tokenizer lines)
    (hfits : after.Fits) (hsame : ∀ line, line ∉ edited → after.get? line = before.get? line) :
    Encoding.RecordsStand before.get? after.get? edited ↔ ∀ token ∈ after.tokens,
      Encoding.lineBefore after.get? token.line =
        if token.line ∈ edited then 0 else Encoding.lineBefore before.get? token.line := by
  have hown := h.onOwnLines hkeeps
  have hword : ∀ line token, after.get? line = some token → line < UInt32.size :=
    fun line token hline =>
      hown line token hline ▸ (hfits.token _ (TokenTable.mem_tokens_of_get? hline)).line_lt
  rw [Encoding.recordsStand_iff (hbefore.onOwnLines hkeeps) hown hword hsame]
  refine ⟨fun hall token htoken => ?_, fun hall line token hline => ?_⟩
  · obtain ⟨line, -, hline⟩ := h.canonical.mem_tokens_iff.mp htoken
    rw [hown line token hline]
    exact hall line token hline
  · exact hown line token hline ▸ hall token (TokenTable.mem_tokens_of_get? hline)

namespace Patch.Leads

open Encoding

variable {patch : Patch} {before after : AnalysisResult}

theorem get?_of_notMem (h : patch.Leads before after) {line : Nat}
    (hout : line ∉ patch.entries.map (·.line)) :
    after.table.get? line = before.table.get? line := by
  rw [← h.overlay_eq]
  exact overlay_of_notMem hout _

theorem lines_encodePatch (h : patch.Leads before after) (hfits : after.table.Fits) :
    (encodePatch patch).edits.map (·.line) = patch.entries.map (·.line) := by
  rw [encodePatch, List.map_map]
  exact List.map_congr_left fun entry hentry =>
    line_encodeEntry (hfits.line_lt _ (h.entries_new entry hentry).1)

variable (h : patch.Leads before after) (hbefore : before.table.Canonical)
  (hafter : after.table.Canonical) (hfits : after.table.Fits)
  (haligned : ∀ line ∈ patch.entries.map (·.line), Aligned before.table.get? line)

include h hbefore hfits haligned

/-- The edits of a patch, all on aligned lines, done on the data of the table before. -/
theorem splice_encodeFull : (encodePatch patch).splice (encodeFull before.table) =
    (List.range' 0 (max before.table.size after.table.size)).flatMap
      (splicedRecord before.table.get? after.table.get? (patch.entries.map (·.line))) := by
  have hrecords := hasRecords_packedRecord before.table.get?
  rw [encodeFull_eq hbefore,
    ← hrecords.flatMap_range' hbefore (Nat.le_max_left _ after.table.size)]
  refine hrecords.spliceFrom_eq (fun line hline => hbefore.get?_of_size_le hline) (.inl rfl)
    h.ascending (fun entry hentry => ?_) fun line _ hout => if_neg hout
  obtain ⟨hline, htokens⟩ := h.entries_new entry hentry
  have hmem : entry.line ∈ patch.entries.map (·.line) := List.mem_map_of_mem hentry
  refine ⟨⟨Nat.zero_le _, by omega⟩, hfits.line_lt _ hline, haligned _ hmem, ?_,
    h.replacedLines_eq entry hentry⟩
  rw [splicedRecord, if_pos hmem, htokens]

include hafter

/-- They lead to the data of the table after if, and only if, the records stand. -/
theorem splice_encodeFull_iff :
    (encodePatch patch).splice (encodeFull before.table) = encodeFull after.table ↔
      RecordsStand before.table.get? after.table.get? (patch.entries.map (·.line)) := by
  have hrecords := hasRecords_packedRecord after.table.get?
  have hlength : ∀ line, (packedRecord after.table.get? line).length = (splicedRecord
      before.table.get? after.table.get? (patch.entries.map (·.line)) line).length := by
    intro line
    rw [hrecords line, splicedRecord]
    split
    · exact (length_encodeFrom _ _ _).symm
    · rename_i hout
      rw [h.get?_of_notMem hout]
      exact (hasRecords_packedRecord before.table.get? line).symm
  rw [h.splice_encodeFull hbefore hfits haligned, encodeFull_eq hafter,
    ← hrecords.flatMap_range' hafter (Nat.le_max_right before.table.size _), eq_comm,
    flatMap_eq_iff fun line _ => hlength line]
  refine ⟨fun hall line => ?_, fun hall line _ => hall line⟩
  by_cases hline : line < max before.table.size after.table.size
  · exact hall line (List.mem_range'_1.mpr ⟨Nat.zero_le _, by omega⟩)
  · -- Past the end of both tables there is nothing to compare.
    have hnone : after.table.get? line = none := hafter.get?_of_size_le (by omega)
    have hnil := hrecords.eq_nil hnone
    have hzero := hlength line
    rw [hnil] at hzero ⊢
    exact (List.length_eq_zero_iff.mp hzero.symm).symm

end Patch.Leads

end LineTokens
