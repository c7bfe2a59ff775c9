import LineTokens.Comparison.Segment

/-! Where the segments of a line stand: each is what `segmentAt?` finds in its column, so its
characters are those of the line there, and a keyword's segment spells the keyword. -/

namespace LineTokens.Comparison

theorem prefix_numberText (cs : List Char) : numberText cs <+: cs := by
  fun_induction numberText cs with
  | case1 => exact List.prefix_refl _
  | case2 c rest _ ih | case3 c rest _ _ ih => exact (List.prefix_cons_inj c).mpr ih
  | case4 => exact List.nil_prefix

/-- What starts a text is a number, as long as it can be, an operator or a keyword. -/
theorem segmentAt?_cases {cs text : List Char} {kind : SegmentKind}
    (h : segmentAt? cs = some (kind, text)) :
    text <+: cs ∧
      (kind = .number ∧ cs.head?.any isDigit = true ∧ text = numberText cs ∨
        (∃ op, kind = .operator op ∧ text = [op.symbol]) ∨
        ∃ relation, kind = .comparison relation ∧ text = relation.keyword) := by
  unfold segmentAt? at h
  split at h
  · cases h
  split at h
  · rename_i hdigit
    cases h
    exact ⟨prefix_numberText _, .inl ⟨rfl, by simpa using hdigit, rfl⟩⟩
  split at h
  · rename_i op hop
    cases h
    obtain rfl := Operator.eq_symbol_of_ofSymbol? hop
    exact ⟨(List.prefix_cons_inj _).mpr List.nil_prefix, .inr (.inl ⟨op, rfl, rfl⟩)⟩
  split at h
  · rename_i hkeyword
    cases h
    exact ⟨List.isPrefixOf_iff_prefix.mp hkeyword, .inr (.inr ⟨_, rfl, rfl⟩)⟩
  split at h
  · rename_i hkeyword
    cases h
    exact ⟨List.isPrefixOf_iff_prefix.mp hkeyword, .inr (.inr ⟨_, rfl, rfl⟩)⟩
  · cases h

/-- A segment of a scan is what starts in its column of the text scanned. -/
theorem mem_scan {line : List Char} {column skip : Nat} {segment : Segment}
    (h : segment ∈ scan line column skip) :
    ∃ i, segment.column = column + i ∧
      segmentAt? (line.drop i) = some (segment.kind, segment.text) := by
  -- a segment of the scan one column further stands one character further
  have hlater {c : Char} {rest : List Char} {column : Nat} :
      (∃ i, segment.column = column + 1 + i ∧
        segmentAt? (rest.drop i) = some (segment.kind, segment.text)) →
      ∃ i, segment.column = column + i ∧
        segmentAt? ((c :: rest).drop i) = some (segment.kind, segment.text) := by
    rintro ⟨i, hcolumn, hat⟩
    exact ⟨i + 1, by omega, hat⟩
  fun_induction scan line column skip with
  | case1 => cases h
  | case2 c rest column skip ih => exact hlater (ih h)
  | case3 c rest column hnone ih => exact hlater (ih h)
  | case4 c rest column kind text hsome ih =>
    rcases List.mem_cons.mp h with rfl | h
    · exact ⟨0, rfl, hsome⟩
    · exact hlater (ih h)

theorem segmentAt?_of_mem_segments {line : List Char} {segment : Segment}
    (h : segment ∈ segments line) :
    segmentAt? (line.drop segment.column) = some (segment.kind, segment.text) := by
  obtain ⟨i, hcolumn, hat⟩ := mem_scan h
  rwa [hcolumn, Nat.zero_add]

/-- The characters of a segment are those of the line in its columns. -/
theorem span_of_mem_segments {line : List Char} {segment : Segment} (h : segment ∈ segments line) :
    (line.drop segment.column).take segment.length = segment.text :=
  (List.prefix_iff_eq_take.mp (segmentAt?_cases (segmentAt?_of_mem_segments h)).1).symm

end LineTokens.Comparison
