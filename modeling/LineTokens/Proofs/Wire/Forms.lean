import LineTokens.Wire.Codec
import Mathlib.Data.List.Forall2

/-! The JSON forms of a value. A record is an object or the array of its field values, and so is
every record inside it; in an object, null fields of some names may be left out. `WireForms` is a
type each of whose values is read back from all its forms, of which the form written is one. The
forms of a list and of an option follow from those of its members, the forms of a record from those
of its fields. -/

namespace LineTokens

open Wire

class WireForms (α : Type) [Wire α] where
  Form : α → Json → Prop
  form_toJson : ∀ a, Form a (toJson a)
  ofJson?_of_form : ∀ {a : α} {json : Json}, Form a json → ofJson? json = some a

open WireForms

/-- A type without a value that null stands for. -/
class NeverNull (α : Type) [Wire α] : Prop where
  ofJson?_null : ofJson? (α := α) .null = none

section Values

variable {α : Type} [Wire α]

/-- Values with one form only. -/
@[reducible] def WireForms.ofScalar (h : ∀ a : α, ofJson? (toJson a) = some a) : WireForms α where
  Form a json := json = toJson a
  form_toJson _ := rfl
  ofJson?_of_form := by
    rintro a _ rfl
    exact h a

theorem natOfJson?_toNat {limit n : Nat} (h : n < limit) : natOfJson? limit (.int n) = some n :=
  if_pos h

instance : WireForms String := .ofScalar fun _ => rfl

instance : WireForms UInt32 := .ofScalar fun n => by
  show (natOfJson? UInt32.size (.int n.toNat)).map UInt32.ofNat = some n
  rw [natOfJson?_toNat n.toNat_lt, Option.map_some, UInt32.ofNat_toNat]

instance : WireForms UInt64 := .ofScalar fun n => by
  show (natOfJson? UInt64.size (.int n.toNat)).map UInt64.ofNat = some n
  rw [natOfJson?_toNat n.toNat_lt, Option.map_some, UInt64.ofNat_toNat]

instance : NeverNull String := ⟨rfl⟩

instance : NeverNull UInt64 := ⟨rfl⟩

variable [WireForms α]

theorem mapM_ofJson? {as : List α} {items : List Json} (h : List.Forall₂ Form as items) :
    items.mapM ofJson? = some as := by
  induction h with
  | nil => rfl
  | cons hform _ ih => rw [List.mapM_cons, ofJson?_of_form hform, ih]; rfl

instance : WireForms (List α) where
  Form as json := ∃ items, json = .arr items ∧ List.Forall₂ Form as items
  form_toJson as := by
    refine ⟨_, rfl, ?_⟩
    rw [List.forall₂_map_right_iff, List.forall₂_same]
    exact fun a _ => form_toJson a
  ofJson?_of_form := by
    rintro as _ ⟨items, rfl, hforms⟩
    exact mapM_ofJson? hforms

theorem ne_null_of_form [NeverNull α] {a : α} {json : Json} (h : Form a json) : json ≠ .null := by
  rintro rfl
  cases (NeverNull.ofJson?_null (α := α)).symm.trans (ofJson?_of_form h)

instance [NeverNull α] : WireForms (Option α) where
  Form
    | none, json => json = .null
    | some a, json => Form a json
  form_toJson
    | none => rfl
    | some a => form_toJson a
  ofJson?_of_form := by
    intro a json hform
    cases a with
    | none =>
      obtain rfl : json = .null := hform
      rfl
    | some a =>
      have hread : (ofJson? json).map some = some (some a) := by rw [ofJson?_of_form hform]; rfl
      have hne := ne_null_of_form hform
      cases json with
      | null => exact absurd rfl hne
      | bool | int | decimal | str | arr | obj => exact hread

theorem required_of_form {a : α} {json : Json} (h : Form a json) :
    required (some json) = some a :=
  ofJson?_of_form h

theorem orDefault_of_form {a default : α} {json : Json} (h : Form a json) :
    orDefault default (some json) = some a :=
  ofJson?_of_form h

end Values

/-! ### Fields of an object -/

namespace Json

variable {name : String} {names : List String} {values : List Json}

theorem lastValue?_cons_of_ne {key : String} (h : key ≠ name) (value : Json)
    (fields : List (String × Json)) :
    lastValue? name ((key, value) :: fields) = lastValue? name fields := by
  rw [lastValue?]
  split
  · rename_i hlater
    exact hlater.symm
  · rename_i hlater
    rw [if_neg h, hlater]

theorem lastValue?_eq_none {fields : List (String × Json)} (h : ∀ field ∈ fields, field.1 ≠ name) :
    lastValue? name fields = none := by
  induction fields with
  | nil => rfl
  | cons field fields ih =>
    rw [lastValue?_cons_of_ne (h field List.mem_cons_self)]
    exact ih fun other hother => h other (List.mem_cons_of_mem _ hother)

/-- Looking up each name among the fields kept finds the field's own value. -/
theorem map_lastValue?_zip (hnodup : names.Nodup) (hlength : values.length = names.length)
    (keep : String × Json → Bool) :
    names.map (lastValue? · ((names.zip values).filter keep)) =
      List.zipWith (fun name value => if keep (name, value) then some value else none)
        names values := by
  induction names generalizing values with
  | nil => rfl
  | cons first names ih =>
    cases values with
    | nil => cases hlength
    | cons value values =>
      obtain ⟨hfirst, hnodup⟩ := List.nodup_cons.mp hnodup
      have hnone : lastValue? first ((names.zip values).filter keep) = none := by
        refine lastValue?_eq_none fun field hfield hname => hfirst (hname ▸ ?_)
        exact (List.of_mem_zip (List.mem_filter.mp hfield).1).1
      have hrest := ih hnodup (by simpa using hlength)
      rw [List.map_cons, List.zip_cons_cons, List.zipWith_cons_cons, List.filter_cons]
      split
      · rw [lastValue?, hnone, ← hrest]
        refine congrArg₂ List.cons (if_pos rfl) (List.map_congr_left fun other hother => ?_)
        refine lastValue?_cons_of_ne ?_ value _
        rintro rfl
        exact hfirst hother
      · rw [hnone, hrest]

end Json

/-! ### Records -/

namespace WireRecord

variable {α : Type} [WireRecord α]

/-- Whether a field is written to an object: null fields of some names are not. -/
def keeps (α : Type) [WireRecord α] (name : String) (value : Json) : Bool :=
  !(value.isNull && (omitted α).contains name)

/-- The object of field values. -/
def objectOf (α : Type) [WireRecord α] (values : List Json) : Json :=
  .obj ((names α).zip values |>.filter fun (name, value) => keeps α name value)

/-- The field values as they are found in the object. -/
def foundValues (α : Type) [WireRecord α] (values : List Json) : List (Option Json) :=
  List.zipWith (fun name value => if keeps α name value then some value else none) (names α) values

/-- Where no field may be left out, all values are found. -/
theorem ofValues?_foundValues (homitted : omitted α = []) {values : List Json}
    (hlength : values.length = (names α).length) :
    ofValues? (α := α) (foundValues α values) = ofValues? (values.map some) := by
  have hkeeps (name : String) (value : Json) : keeps α name value = true := by
    rw [keeps, homitted]
    simp
  have hfound : foundValues α values = values.map some := calc
    foundValues α values = ((names α).zip values).map (some ·.2) := by
        simp only [foundValues, hkeeps, if_true, ← List.map_uncurry_zip_eq_zipWith]
        rfl
    _ = (((names α).zip values).map Prod.snd).map some := by rw [List.map_map]; rfl
    _ = values.map some := by rw [List.map_snd_zip (Nat.le_of_eq hlength)]
  rw [hfound]

theorem ofObjectOrArray?_arr {values : List Json} (h : values.length = (names α).length) :
    ofObjectOrArray? (.arr values) = ofValues? (α := α) (values.map some) := by
  rw [ofObjectOrArray?, Json.fieldValues?, if_pos (Nat.le_of_eq h), h, Nat.sub_self,
    List.replicate_zero, List.append_nil]

theorem ofObjectOrArray?_objectOf (hnodup : (names α).Nodup) {values : List Json}
    (hlength : values.length = (names α).length) :
    ofObjectOrArray? (objectOf α values) = ofValues? (α := α) (foundValues α values) := by
  rw [objectOf, ofObjectOrArray?, Json.fieldValues?, Json.map_lastValue?_zip hnodup hlength]
  rfl

end WireRecord

open WireRecord

/-- A type of records, by the forms of the fields of each. A null field that may be left out is read
alike when it is. -/
class RecordForms (α : Type) [WireRecord α] where
  fields : α → List (Json → Prop)
  form_toValues : ∀ a, List.Forall₂ (fun form value => form value) (fields a) (toValues a)
  read : ∀ {a : α} {values : List Json},
    List.Forall₂ (fun form value => form value) (fields a) values →
      ofValues? (values.map some) = some a
  length_eq : ∀ a, (fields a).length = (names α).length := by exact fun _ => rfl
  nodup : (names α).Nodup := by decide
  omit_null : ∀ {values : List Json}, values.length = (names α).length →
      ofValues? (α := α) (foundValues α values) = ofValues? (values.map some)

namespace RecordForms

variable {α : Type} [WireRecord α] [RecordForms α] {a : α} {values : List Json}

/-- Field values in any of their forms. -/
def FieldForms (a : α) (values : List Json) : Prop :=
  List.Forall₂ (fun form value => form value) (fields a) values

theorem FieldForms.length (h : FieldForms a values) : values.length = (names α).length :=
  (List.Forall₂.length_eq h).symm.trans (length_eq a)

theorem FieldForms.ofJson?_arr (h : FieldForms a values) :
    ofObjectOrArray? (.arr values) = some a :=
  (ofObjectOrArray?_arr h.length).trans (read h)

theorem FieldForms.ofJson?_objectOf (h : FieldForms a values) :
    ofObjectOrArray? (objectOf α values) = some a := by
  rw [ofObjectOrArray?_objectOf nodup h.length, omit_null h.length, read h]

/-- A record is an object or an array of its field values. -/
instance : WireForms α where
  Form a json := ∃ values, FieldForms a values ∧ (json = objectOf α values ∨ json = .arr values)
  form_toJson a := ⟨toValues a, form_toValues a, .inl rfl⟩
  ofJson?_of_form := by
    rintro a _ ⟨values, hvalues, rfl | rfl⟩
    · exact hvalues.ofJson?_objectOf
    · exact hvalues.ofJson?_arr

end RecordForms

end LineTokens
