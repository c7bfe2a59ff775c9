import LineTokens.Comparison.Segmentation
import LineTokens.Proofs.Comparison.Scan
import Mathlib.Data.List.Pairwise

/-! The segments of a line are its segmentation, and a line has no other. What `segmentAt?` finds is
the only spelling that can stand in a column: the first characters of numbers, operators and the two
keywords are different, and a number ends where it must. So from each column on, a segmentation goes
on as the scan does, past a character at which nothing starts or past a whole segment. -/

namespace LineTokens.Comparison

variable {line cs ds text rest : List Char} {c : Char} {kind : SegmentKind} {column first : Nat}
  {segment : Segment} {ss : List Segment}

/-! ### Numbers -/

theorem numberText_digit (h : isDigit c = true) (rest : List Char) :
    numberText (c :: rest) = c :: numberText rest := by
  rw [numberText, if_pos h]

theorem numberText_point (h : rest.head?.any isDigit = true) :
    numberText ('.' :: rest) = '.' :: numberText rest := by
  rw [numberText, if_neg (by decide), if_pos ⟨rfl, h⟩]

theorem numberText_digits_append (h : ∀ c ∈ ds, isDigit c = true) (rest : List Char) :
    numberText (ds ++ rest) = ds ++ numberText rest := by
  induction ds with
  | nil => rfl
  | cons d ds ih =>
    rw [List.cons_append, numberText_digit (h d List.mem_cons_self),
      ih fun c hc => h c (List.mem_cons_of_mem d hc), List.cons_append]

theorem head_digits_append (nonempty : ds ≠ []) (h : ∀ c ∈ ds, isDigit c = true)
    (rest : List Char) : (ds ++ rest).head?.any isDigit = true := by
  cases ds with
  | nil => exact absurd rfl nonempty
  | cons d ds => simpa using h d List.mem_cons_self

namespace NumberText

theorem head_digit (h : NumberText text) : text.head?.any isDigit = true := by
  induction h with
  | digits nonempty all => simpa using head_digits_append nonempty all []
  | @point cs ds before nonempty all ih =>
    cases cs with
    | nil => cases ih
    | cons c cs => simpa using ih

theorem ne_nil (h : NumberText text) : text ≠ [] := by
  rintro rfl
  cases h.head_digit

/-- A number at the start of a text is read to its end, and the reading goes on from there. -/
theorem numberText_append (h : NumberText text) (rest : List Char) :
    numberText (text ++ rest) = text ++ numberText rest := by
  induction h generalizing rest with
  | digits nonempty all => exact numberText_digits_append all rest
  | @point cs ds before nonempty all ih =>
    rw [List.append_assoc, List.cons_append, ih,
      numberText_point (head_digits_append nonempty all rest), numberText_digits_append all, List.append_assoc, List.cons_append]

theorem single (h : isDigit c = true) : NumberText [c] :=
  .digits (List.cons_ne_nil c []) (by simpa using h)

theorem digit_cons (hc : isDigit c = true) (h : NumberText text) : NumberText (c :: text) := by
  induction h with
  | digits nonempty all =>
    refine .digits (List.cons_ne_nil _ _) fun d hd => ?_
    rcases List.mem_cons.mp hd with rfl | hd
    · exact hc
    · exact all d hd
  | point before nonempty all ih => exact .point ih nonempty all

theorem digit_point_cons (hc : isDigit c = true) (h : NumberText text) :
    NumberText (c :: '.' :: text) := by
  induction h with
  | digits nonempty all => exact .point (single hc) nonempty all
  | point before nonempty all ih => exact .point ih nonempty all

/-- The characters of a number are digits and points. -/
theorem digit_or_point (h : NumberText text) : ∀ c ∈ text, isDigit c = true ∨ c = '.' := by
  induction h with
  | digits nonempty all => exact fun c hc => .inl (all c hc)
  | point before nonempty all ih =>
    intro c hc
    rcases List.mem_append.mp hc with hc | hc
    · exact ih c hc
    · rcases List.mem_cons.mp hc with rfl | hc
      · exact .inr rfl
      · exact .inl (all c hc)

end NumberText

/-- What is read off the start of a text is a number if a digit stands there; otherwise it is
nothing, or a point and a number. -/
theorem numberText_cases (cs : List Char) :
    cs.head?.any isDigit = true ∧ NumberText (numberText cs) ∨
      cs.head?.any isDigit = false ∧
        (numberText cs = [] ∨ ∃ text, numberText cs = '.' :: text ∧ NumberText text) := by
  fun_induction numberText cs with
  | case1 => exact .inr ⟨rfl, .inl rfl⟩
  | case2 c rest hdigit ih =>
    refine .inl ⟨by simpa using hdigit, ?_⟩
    rcases ih with ⟨-, hnumber⟩ | ⟨-, hnil | ⟨text, hpoint, hnumber⟩⟩
    · exact hnumber.digit_cons hdigit
    · rw [hnil]
      exact .single hdigit
    · rw [hpoint]
      exact hnumber.digit_point_cons hdigit
  | case3 c rest hdigit hpoint ih =>
    obtain ⟨rfl, hhead⟩ := hpoint
    have hnumber := (ih.resolve_right fun hno => by simp [hhead] at hno).2
    exact .inr ⟨by simpa using hdigit, .inr ⟨_, rfl, hnumber⟩⟩
  | case4 c rest hdigit => exact .inr ⟨by simpa using hdigit, .inl rfl⟩

theorem numberText_of_head (h : cs.head?.any isDigit = true) : NumberText (numberText cs) :=
  ((numberText_cases cs).resolve_right fun hno => by simp [h] at hno).2

theorem endsNumber_iff : EndsNumber rest ↔ numberText rest = [] := by
  constructor
  · intro h
    rcases numberText_cases rest with ⟨-, hnumber⟩ | ⟨-, hnil | ⟨text, hpoint, hnumber⟩⟩
    · exact absurd (prefix_numberText rest) (h _ hnumber).1
    · exact hnil
    · exact absurd (hpoint ▸ prefix_numberText rest) (h _ hnumber).2
  · rintro h text hnumber
    constructor
    · rintro ⟨tail, rfl⟩
      rw [hnumber.numberText_append, List.append_eq_nil_iff] at h
      exact hnumber.ne_nil h.1
    · rintro ⟨tail, rfl⟩
      have hhead := hnumber.head_digit
      cases text with
      | nil => cases hhead
      | cons d text =>
        rw [List.cons_append, numberText_point (by simpa using hhead)] at h
        cases h

/-- A number can end before a character that is no digit, and before a point without one. -/
theorem endsNumber_cons_iff :
    EndsNumber (c :: rest) ↔
      isDigit c = false ∧ (c = '.' → rest.head?.any isDigit = false) := by
  rw [endsNumber_iff, numberText]
  by_cases hdigit : isDigit c = true
  · simp [hdigit]
  · by_cases hpoint : c = '.' ∧ rest.head?.any isDigit = true
    · simp [hpoint]
    · simp_all

theorem numberText_drop_numberText (cs : List Char) :
    numberText (cs.drop (numberText cs).length) = [] := by
  fun_induction numberText cs with
  | case1 => rfl
  | case2 c rest _ ih | case3 c rest _ _ ih => exact ih
  | case4 c rest hdigit hpoint => rw [List.length_nil, List.drop_zero, numberText, if_neg hdigit,
      if_neg hpoint]

/-! ### Segments in a column -/

theorem SegmentKind.Spelled.ne_nil (h : kind.Spelled text) : text ≠ [] := by
  cases kind with
  | number => exact NumberText.ne_nil h
  | operator op =>
    obtain rfl : text = [op.symbol] := h
    exact List.cons_ne_nil _ _
  | comparison relation =>
    obtain rfl : text = relation.keyword := h
    cases relation <;> exact List.cons_ne_nil _ _

theorem segmentAt?_digit (h : isDigit c = true) (rest : List Char) :
    segmentAt? (c :: rest) = some (.number, numberText (c :: rest)) := by
  rw [segmentAt?, if_pos h]

/-- What starts a text is what is spelled there, a number to its end. -/
theorem segmentAt?_eq_some_iff :
    segmentAt? cs = some (kind, text) ↔
      kind.Spelled text ∧ text <+: cs ∧ (kind = .number → EndsNumber (cs.drop text.length)) := by
  constructor
  · intro h
    obtain ⟨hbegins, hcases⟩ := segmentAt?_cases h
    refine ⟨?_, hbegins, ?_⟩
    · rcases hcases with ⟨rfl, hhead, rfl⟩ | ⟨op, rfl, rfl⟩ | ⟨relation, rfl, rfl⟩
      · exact numberText_of_head hhead
      · rfl
      · rfl
    · rintro rfl
      rcases hcases with ⟨-, -, rfl⟩ | ⟨op, hkind, -⟩ | ⟨relation, hkind, -⟩
      · exact endsNumber_iff.mpr (numberText_drop_numberText cs)
      · cases hkind
      · cases hkind
  · rintro ⟨hspelled, ⟨rest, rfl⟩, hends⟩
    cases kind with
    | number =>
      have hnumber : NumberText text := hspelled
      rw [List.drop_left, endsNumber_iff] at hends
      have hall := hnumber.numberText_append rest
      rw [hends rfl, List.append_nil] at hall
      cases text with
      | nil => exact absurd rfl hnumber.ne_nil
      | cons c text =>
        rw [List.cons_append] at hall ⊢
        rw [segmentAt?_digit (by simpa using hnumber.head_digit), hall]
    | operator op =>
      obtain rfl : text = [op.symbol] := hspelled
      cases op <;> rfl
    | comparison relation =>
      obtain rfl : text = relation.keyword := hspelled
      cases relation <;> rfl

/-- Something starts a text if anything is spelled there. -/
theorem exists_segmentAt? (hspelled : kind.Spelled text) (hbegins : text <+: cs) :
    ∃ kind text, segmentAt? cs = some (kind, text) := by
  cases kind with
  | number =>
    obtain ⟨rest, rfl⟩ := hbegins
    have hhead := NumberText.head_digit hspelled
    cases text with
    | nil => cases hhead
    | cons c text => exact ⟨_, _, segmentAt?_digit (by simpa using hhead) _⟩
  | operator op => exact ⟨_, _, segmentAt?_eq_some_iff.mpr ⟨hspelled, hbegins, nofun⟩⟩
  | comparison relation => exact ⟨_, _, segmentAt?_eq_some_iff.mpr ⟨hspelled, hbegins, nofun⟩⟩

theorem startsAt_iff :
    StartsAt line column ↔ ∃ kind text, segmentAt? (line.drop column) = some (kind, text) := by
  constructor
  · rintro ⟨kind, text, hspelled, hbegins⟩
    exact exists_segmentAt? hspelled hbegins
  · rintro ⟨kind, text, hat⟩
    obtain ⟨hspelled, hbegins, -⟩ := segmentAt?_eq_some_iff.mp hat
    exact ⟨kind, text, hspelled, hbegins⟩

theorem Segment.occurs_iff :
    segment.Occurs line ↔
      segmentAt? (line.drop segment.column) = some (segment.kind, segment.text) := by
  rw [segmentAt?_eq_some_iff, List.drop_drop]
  exact ⟨fun h => ⟨h.spelled, h.spans, h.maximal⟩, fun ⟨hs, hp, hm⟩ => ⟨hs, hp, hm⟩⟩

namespace Segment.Occurs

theorem startsAt (h : segment.Occurs line) : StartsAt line segment.column :=
  ⟨_, _, h.spelled, h.spans⟩

theorem column_lt_stop (h : segment.Occurs line) : segment.column < segment.stop := by
  have := List.length_pos_iff.mpr h.spelled.ne_nil
  rw [Segment.stop, Segment.length]
  omega

theorem stop_le (h : segment.Occurs line) : segment.stop ≤ line.length := by
  have hlength := h.spans.length_le
  have hlt := h.column_lt_stop
  rw [List.length_drop] at hlength
  rw [Segment.stop, Segment.length] at *
  omega

/-- Only one segment can stand in a column. -/
theorem eq_of_column {other : Segment} (h : segment.Occurs line) (hother : other.Occurs line)
    (hcolumn : segment.column = other.column) : segment = other := by
  have hat := Segment.occurs_iff.mp h
  rw [hcolumn, Segment.occurs_iff.mp hother] at hat
  cases segment
  cases other
  cases hcolumn
  cases hat
  rfl

end Segment.Occurs

/-! ### Segmentations from a column on -/

/-- The part of a segmentation that stands in the columns from `first` on. -/
structure SegmentationFrom (line : List Char) (first : Nat) (segments : List Segment) : Prop where
  occurs : ∀ segment ∈ segments, segment.Occurs line
  ascending : segments.Pairwise fun s t => s.stop ≤ t.column
  first_le : ∀ segment ∈ segments, first ≤ segment.column
  complete : ∀ column, first ≤ column → InGap segments column → ¬ StartsAt line column

theorem not_inGap_iff :
    ¬ InGap ss column ↔ ∃ segment ∈ ss, segment.column ≤ column ∧ column < segment.stop := by
  simp only [InGap, not_forall, not_or, Nat.not_lt, Nat.not_le, exists_prop]

theorem segmentation_iff_from : Segmentation line ss ↔ SegmentationFrom line 0 ss :=
  ⟨fun h => ⟨h.occurs, h.ascending, fun _ _ => Nat.zero_le _, fun column _ => h.complete column⟩,
    fun h => ⟨h.occurs, h.ascending, fun column => h.complete column (Nat.zero_le _)⟩⟩

/-- Past the end of the line there are no segments. -/
theorem segmentationFrom_end (h : line.length ≤ first) :
    SegmentationFrom line first ss ↔ ss = [] := by
  constructor
  · intro hfrom
    refine List.eq_nil_iff_forall_not_mem.mpr fun segment hmem => ?_
    have hle := hfrom.first_le segment hmem
    have hlt := (hfrom.occurs segment hmem).column_lt_stop
    have hstop := (hfrom.occurs segment hmem).stop_le
    omega
  · rintro rfl
    refine ⟨by simp, .nil, by simp, fun column hcolumn _ hstarts => ?_⟩
    obtain ⟨kind, text, hspelled, hbegins⟩ := hstarts
    rw [List.drop_eq_nil_of_le (by omega), List.prefix_nil] at hbegins
    exact hspelled.ne_nil hbegins

/-- A column in which nothing starts is in a gap. -/
theorem segmentationFrom_skip (h : ¬ StartsAt line first) :
    SegmentationFrom line first ss ↔ SegmentationFrom line (first + 1) ss := by
  constructor
  · intro hfrom
    refine ⟨hfrom.occurs, hfrom.ascending, fun segment hmem => ?_, fun column hcolumn =>
      hfrom.complete column (by omega)⟩
    rcases Nat.eq_or_lt_of_le (hfrom.first_le segment hmem) with heq | hlt
    · exact absurd (heq ▸ (hfrom.occurs segment hmem).startsAt) h
    · exact hlt
  · intro hfrom
    refine ⟨hfrom.occurs, hfrom.ascending, fun segment hmem =>
      Nat.le_of_succ_le (hfrom.first_le segment hmem), fun column hcolumn hgap => ?_⟩
    rcases Nat.eq_or_lt_of_le hcolumn with rfl | hlt
    · exact h
    · exact hfrom.complete column hlt hgap

/-- Where something starts, the first segment stands, and the others come after it. -/
theorem segmentationFrom_cons (h : segment.Occurs line) (hcolumn : segment.column = first) :
    SegmentationFrom line first ss ↔
      ∃ rest, ss = segment :: rest ∧ SegmentationFrom line segment.stop rest := by
  subst hcolumn
  constructor
  · intro hfrom
    obtain ⟨found, hmem, hle, -⟩ := not_inGap_iff.mp fun hgap =>
      hfrom.complete _ (Nat.le_refl _) hgap h.startsAt
    obtain rfl : found = segment :=
      (hfrom.occurs found hmem).eq_of_column h (Nat.le_antisymm hle (hfrom.first_le found hmem))
    cases ss with
    | nil => cases hmem
    | cons s rest =>
      obtain ⟨hlater, hascending⟩ := List.pairwise_cons.mp hfrom.ascending
      have hfirst := hfrom.first_le s List.mem_cons_self
      have hlt := (hfrom.occurs s List.mem_cons_self).column_lt_stop
      have hhead : found = s := by
        refine (List.mem_cons.mp hmem).resolve_right fun hrest => ?_
        have := hlater found hrest
        omega
      subst hhead
      refine ⟨rest, rfl, fun t ht => hfrom.occurs t (List.mem_cons_of_mem _ ht), hascending, hlater,
        fun column hcolumn hgap => hfrom.complete column (by omega) ?_⟩
      exact List.forall_mem_cons.mpr ⟨.inr hcolumn, hgap⟩
  · rintro ⟨rest, rfl, hrest⟩
    have hlt := h.column_lt_stop
    refine ⟨?_, List.pairwise_cons.mpr ⟨hrest.first_le, hrest.ascending⟩, ?_, ?_⟩
    · exact List.forall_mem_cons.mpr ⟨h, hrest.occurs⟩
    · exact List.forall_mem_cons.mpr
        ⟨Nat.le_refl _, fun s hs => Nat.le_trans (Nat.le_of_lt hlt) (hrest.first_le s hs)⟩
    · intro column hle hgap
      obtain ⟨hout, hgap⟩ := List.forall_mem_cons.mp hgap
      exact hrest.complete column (hout.resolve_left (by omega)) hgap

/-! ### The scan -/

/-- What is left of a segment already found is passed over. -/
theorem scan_skip (cs : List Char) (column skip : Nat) :
    scan cs column skip = scan (cs.drop skip) (column + skip) 0 := by
  induction cs generalizing column skip with
  | nil => cases skip <;> rfl
  | cons c rest ih =>
    cases skip with
    | zero => rfl
    | succ skip =>
      rw [scan, ih, List.drop_succ_cons]
      congr 1
      omega

/-- From each column on, a segmentation is what the scan finds there. -/
theorem segmentationFrom_iff (line : List Char) (first : Nat) (ss : List Segment) :
    SegmentationFrom line first ss ↔ ss = scan (line.drop first) first 0 := by
  -- by induction on the columns left; a segment takes as many as it has characters
  induction hleft : line.length - first using Nat.strongRecOn generalizing first ss with
  | ind left ih =>
    by_cases hend : line.length ≤ first
    · rw [segmentationFrom_end hend, List.drop_eq_nil_of_le hend, scan]
    · obtain ⟨c, rest, hdrop⟩ : ∃ c rest, line.drop first = c :: rest :=
        List.exists_cons_of_ne_nil (by simpa using hend)
      have hnext : line.drop (first + 1) = rest := by rw [← List.drop_drop, hdrop]; rfl
      cases hat : segmentAt? (line.drop first) with
      | none =>
        have hstarts : ¬ StartsAt line first := fun hstarts => by
          obtain ⟨kind, text, hsome⟩ := startsAt_iff.mp hstarts
          cases hat.symm.trans hsome
        rw [segmentationFrom_skip hstarts, ih _ (by omega) (first + 1) ss rfl, hnext, hdrop, scan,
          ← hdrop, hat]
      | some found =>
        obtain ⟨kind, text⟩ := found
        have hoccurs : Segment.Occurs ⟨kind, text, first⟩ line := Segment.occurs_iff.mpr hat
        have hlt : first < first + text.length := hoccurs.column_lt_stop
        have hscan : scan rest (first + 1) (text.length - 1) =
            scan (line.drop (first + text.length)) (first + text.length) 0 := by
          rw [scan_skip, ← hnext, List.drop_drop,
            show first + 1 + (text.length - 1) = first + text.length by omega]
        rw [segmentationFrom_cons hoccurs rfl, hdrop, scan, ← hdrop, hat]
        have hfrom (later : List Segment) :=
          ih (line.length - (first + text.length)) (by omega) (first + text.length) later rfl
        constructor
        · rintro ⟨later, rfl, hlater⟩
          exact congrArg _ (((hfrom later).mp hlater).trans hscan.symm)
        · rintro rfl
          exact ⟨_, rfl, (hfrom _).mpr hscan⟩

theorem segmentation_iff : Segmentation line ss ↔ ss = segments line :=
  segmentation_iff_from.trans (segmentationFrom_iff line 0 ss)

/-! ### The longer keyword -/

/-- A segment has the longer keyword's first letter in its own first column only, and only if it is
that keyword. -/
theorem SegmentKind.Spelled.eq_notEquals {i : Nat} (h : kind.Spelled text)
    (hget : text[i]? = some 'N') : kind = .comparison .notEquals ∧ i = 0 := by
  have hmem : 'N' ∈ text := List.mem_of_getElem? hget
  cases kind with
  | number =>
    rcases NumberText.digit_or_point h 'N' hmem with hdigit | hpoint
    · cases hdigit
    · cases hpoint
  | operator op =>
    obtain rfl : text = [op.symbol] := h
    exact absurd hmem (by cases op <;> decide)
  | comparison relation =>
    obtain rfl : text = relation.keyword := h
    cases relation with
    | equals => exact absurd hmem (by decide)
    | notEquals =>
      cases i with
      | zero => exact ⟨rfl, rfl⟩
      | succ i =>
        have htail : Relation.notEquals.keyword.tail[i]? = some 'N' := hget
        exact absurd (List.mem_of_getElem? htail) (by decide)

namespace Segmentation

/-- Where the longer keyword is spelled, its segment stands. -/
theorem exists_notEquals (h : Segmentation line ss)
    (hspelled : Relation.notEquals.keyword <+: line.drop column) :
    ∃ segment ∈ ss, segment.kind = .comparison .notEquals ∧ segment.column = column := by
  obtain ⟨segment, hmem, hle, hlt⟩ := not_inGap_iff.mp fun hgap =>
    h.complete column hgap ⟨.comparison .notEquals, _, rfl, hspelled⟩
  have hoccurs := h.occurs segment hmem
  have hin : column - segment.column < segment.text.length := by
    rw [Segment.stop, Segment.length] at hlt
    omega
  have hletter : segment.text[column - segment.column]? = some 'N' := by
    have hline := List.prefix_iff_getElem?.mp hoccurs.spans _ hin
    rw [List.getElem?_drop, Nat.add_sub_cancel' hle] at hline
    have hkeyword := List.prefix_iff_getElem?.mp hspelled 0 (by decide)
    rw [List.getElem?_drop, Nat.add_zero, hline] at hkeyword
    rw [List.getElem?_eq_getElem hin]
    exact hkeyword
  obtain ⟨hkind, hzero⟩ := hoccurs.spelled.eq_notEquals hletter
  exact ⟨segment, hmem, hkind, by omega⟩

/-- Two segments do not share a column. -/
theorem apart (h : Segmentation line ss) {s t : Segment} (hs : s ∈ ss) (ht : t ∈ ss) (hne : s ≠ t) :
    s.stop ≤ t.column ∨ t.stop ≤ s.column := by
  have hpairs : ss.Pairwise fun s t => s.stop ≤ t.column ∨ t.stop ≤ s.column :=
    h.ascending.imp .inl
  have : Std.Symm fun s t : Segment => s.stop ≤ t.column ∨ t.stop ≤ s.column := ⟨fun _ _ => .symm⟩
  exact hpairs.forall hs ht hne

/-- The shorter keyword is no segment where it ends the longer one. -/
theorem not_tail (h : Segmentation line ss) (hmem : segment ∈ ss)
    (hkind : segment.kind = .comparison .equals) (hcolumn : column + 4 = segment.column) :
    ¬ Relation.notEquals.keyword <+: line.drop column := by
  intro hspelled
  obtain ⟨longer, hlonger, hnotEquals, hat⟩ := h.exists_notEquals hspelled
  have hstop : longer.stop = longer.column + 10 := by
    have htext := (h.occurs longer hlonger).spelled
    rw [hnotEquals] at htext
    rw [Segment.stop, Segment.length, show longer.text = _ from htext]
    rfl
  have hne : segment ≠ longer := by
    rintro rfl
    rw [hkind] at hnotEquals
    cases hnotEquals
  have hlt := (h.occurs segment hmem).column_lt_stop
  have := h.apart hmem hlonger hne
  omega

end Segmentation

/-- The segments of a line are its leftmost spellings, one after the other, each in the columns of
its characters; no number goes on after its segment, nothing is spelled from a column between two
segments on, and no other list of segments is like that. -/
theorem segments_leftmost (line : List Char) :
    Segmentation line (segments line) ∧
      (segments line).Pairwise (fun s t => s.column < t.column ∧ s.stop ≤ t.column) ∧
      (∀ segment ∈ segments line, segment.kind.Spelled segment.text ∧
        segment.stop ≤ line.length ∧
        (line.drop segment.column).take segment.length = segment.text ∧
        (segment.kind = .number → ∀ c rest, line.drop segment.stop = c :: rest →
          isDigit c = false ∧ (c = '.' → rest.head?.any isDigit = false)) ∧
        (segment.kind = .comparison .equals → ∀ column, column + 4 = segment.column →
          ¬ Relation.notEquals.keyword <+: line.drop column)) ∧
      ∀ ss, Segmentation line ss → ss = segments line := by
  have h : Segmentation line (segments line) := segmentation_iff.mpr rfl
  refine ⟨h, ?_, fun segment hmem => ?_, fun ss => segmentation_iff.mp⟩
  · refine h.ascending.imp_of_mem fun {s t} hs _ hle => ⟨?_, hle⟩
    exact Nat.lt_of_lt_of_le (h.occurs s hs).column_lt_stop hle
  · have hoccurs := h.occurs segment hmem
    refine ⟨hoccurs.spelled, hoccurs.stop_le, span_of_mem_segments hmem, ?_, ?_⟩
    · intro hnumber c rest hrest
      have hends := hoccurs.maximal hnumber
      rw [hrest] at hends
      exact endsNumber_cons_iff.mp hends
    · exact fun hkind column hcolumn => h.not_tail hmem hkind hcolumn

theorem segments_leftmost_overlapping_keywords :
    let line := "NOT_NOT_EQUALSEQUALS 1..2.3x".toList
    let ss : List Segment := [⟨.comparison .notEquals, Relation.notEquals.keyword, 4⟩,
      ⟨.comparison .equals, Relation.equals.keyword, 14⟩, ⟨.number, ['1'], 21⟩,
      ⟨.number, ['2', '.', '3'], 24⟩]
    segments line = ss ∧ Segmentation line ss ∧ (∀ ts, Segmentation line ts → ts = ss) ∧
      ¬ Relation.notEquals.keyword <+: line.drop 10 := by
  intro line ss
  have hsegments : segments line = ss := by decide +kernel
  obtain ⟨hsegmentation, -, hall, hunique⟩ := segments_leftmost line
  rw [hsegments] at hsegmentation hall hunique
  obtain ⟨-, -, -, -, htail⟩ :=
    hall ⟨.comparison .equals, Relation.equals.keyword, 14⟩ (by simp [ss])
  exact ⟨hsegments, hsegmentation, hunique, htail rfl 10 rfl⟩

end LineTokens.Comparison
