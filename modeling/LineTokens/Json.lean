/-!
JSON values. A number written with a fraction or an exponent is kept apart from an integer, since
the two are not read alike.
-/

namespace LineTokens

inductive Json
  | null
  | bool (value : Bool)
  | int (value : Int)
  /-- A number that is not written as an integer: `mantissa * 10 ^ exponent`. -/
  | decimal (mantissa exponent : Int)
  | str (value : String)
  | arr (items : List Json)
  | obj (fields : List (String × Json))
deriving Inhabited, Repr

namespace Json

def isNull : Json → Bool
  | null => true
  | _ => false

/-- The value of the last field with a name. -/
def lastValue? (name : String) : List (String × Json) → Option Json
  | [] => none
  | (key, value) :: rest =>
    match lastValue? name rest with
    | some later => some later
    | none => if key = name then some value else none

/-- The values of a record's named fields: by name in an object, where unknown names do not matter,
or by place in an array, which may be short but not long. -/
def fieldValues? (names : List String) : Json → Option (List (Option Json))
  | obj fields => some (names.map (lastValue? · fields))
  | arr items =>
    if items.length ≤ names.length then
      some (items.map some ++ List.replicate (names.length - items.length) none)
    else none
  | _ => none

end Json

end LineTokens
