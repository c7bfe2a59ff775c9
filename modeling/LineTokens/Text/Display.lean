/-!
The one-line display of records: the name, and in braces the fields in order.
-/

namespace LineTokens.Text

/-- `name { field: value, … }`. -/
def displayRecord (name : String) (fields : List (String × String)) : String :=
  name ++ " \x7b " ++ ", ".intercalate (fields.map fun (field, value) => field ++ ": " ++ value)
    ++ " \x7d"

def displayOption : Option String → String
  | none => "None"
  | some value => "Some(" ++ value ++ ")"

end LineTokens.Text
