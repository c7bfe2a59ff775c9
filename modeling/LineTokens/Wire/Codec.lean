import LineTokens.Json

/-!
Values as JSON. `Wire` is a type whose values are written to JSON and read from it; `WireRecord` is
one whose values are records, written as objects and read from objects or from arrays of the field
values in order.
-/

namespace LineTokens

class Wire (α : Type) where
  toJson : α → Json
  ofJson? : Json → Option α

namespace Wire

/-- An integer of the range below `limit`. -/
def natOfJson? (limit : Nat) : Json → Option Nat
  | .int (.ofNat n) => if n < limit then some n else none
  | _ => none

instance : Wire String where
  toJson := .str
  ofJson?
    | .str s => some s
    | _ => none

instance : Wire UInt32 where
  toJson n := .int n.toNat
  ofJson? json := (natOfJson? UInt32.size json).map UInt32.ofNat

instance : Wire UInt64 where
  toJson n := .int n.toNat
  ofJson? json := (natOfJson? UInt64.size json).map UInt64.ofNat

instance {α : Type} [Wire α] : Wire (List α) where
  toJson items := .arr (items.map toJson)
  ofJson?
    | .arr items => items.mapM ofJson?
    | _ => none

instance {α : Type} [Wire α] : Wire (Option α) where
  toJson
    | none => .null
    | some a => toJson a
  ofJson?
    | .null => some none
    | json => (ofJson? json).map some

/-- The value of a field that must be there. -/
def required {α : Type} [Wire α] : Option Json → Option α
  | some json => ofJson? json
  | none => none

/-- The value of a field that may be missing. -/
def orDefault {α : Type} [Wire α] (default : α) : Option Json → Option α
  | some json => ofJson? json
  | none => some default

end Wire

class WireRecord (α : Type) where
  names : List String
  /-- The names of the fields that are left out when null. -/
  omitted : List String
  toValues : α → List Json
  ofValues? : List (Option Json) → Option α

namespace WireRecord

variable {α : Type} [WireRecord α]

def toObject (a : α) : Json :=
  .obj ((names α).zip (toValues a) |>.filter fun (name, value) =>
    !(value.isNull && (omitted α).contains name))

/-- A record as the array of its field values. -/
def toArray (a : α) : Json := .arr (toValues a)

def ofObjectOrArray? (json : Json) : Option α :=
  match json.fieldValues? (names α) with
  | some values => ofValues? values
  | none => none

instance : Wire α := ⟨toObject, ofObjectOrArray?⟩

end WireRecord

end LineTokens
