import LineTokens.Token

/-!
The legend: the ordered lists of token type and modifier names that a client receives once. Encoded
tokens refer to a type by its place in the list.
-/

namespace LineTokens

inductive TokenType
  | namespaceName
  | type
  | className
  | enum
  | interface
  | struct
  | typeParameter
  | parameter
  | variableName
  | property
  | enumMember
  | event
  | function
  | method
  | macroName
  | keyword
  | modifier
  | comment
  | string
  | number
  | regexp
  | operator
deriving DecidableEq, Repr

namespace TokenType

def all : List TokenType :=
  [namespaceName, type, className, enum, interface, struct, typeParameter, parameter, variableName,
    property, enumMember, event, function, method, macroName, keyword, modifier, comment, string,
    number, regexp, operator]

def name : TokenType → String
  | namespaceName => "namespace"
  | type => "type"
  | className => "class"
  | enum => "enum"
  | interface => "interface"
  | struct => "struct"
  | typeParameter => "typeParameter"
  | parameter => "parameter"
  | variableName => "variable"
  | property => "property"
  | enumMember => "enumMember"
  | event => "event"
  | function => "function"
  | method => "method"
  | macroName => "macro"
  | keyword => "keyword"
  | modifier => "modifier"
  | comment => "comment"
  | string => "string"
  | number => "number"
  | regexp => "regexp"
  | operator => "operator"

/-- Place of the type in the legend. -/
def id (t : TokenType) : UInt32 := UInt32.ofNat (all.idxOf t)

/-- The type that colors tokens of a kind: comparisons that hold are keywords, others strings. -/
def ofKind : TokenKind → TokenType
  | .holds => keyword
  | .fails => string

end TokenType

def TokenKind.typeId (kind : TokenKind) : UInt32 := (TokenType.ofKind kind).id

def TokenKind.ofTypeId? (id : UInt32) : Option TokenKind := all.find? (·.typeId == id)

theorem TokenKind.ofTypeId?_typeId (kind : TokenKind) : ofTypeId? kind.typeId = some kind := by
  cases kind <;> decide

/-- The modifier names, in legend order; no token has a modifier. -/
def modifierNames : List String :=
  ["declaration", "definition", "readonly", "static", "deprecated", "abstract", "async",
    "modification", "documentation", "defaultLibrary"]

structure Legend where
  tokenTypes : List String
  tokenModifiers : List String
deriving DecidableEq, Repr

def Legend.standard : Legend := ⟨TokenType.all.map TokenType.name, modifierNames⟩

end LineTokens
