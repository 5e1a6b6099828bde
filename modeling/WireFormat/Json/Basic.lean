/-! JSON values, and what can be wrong with a JSON text or with the type of a value. -/

namespace WireFormat

/-- A JSON number: an integer or a double. -/
inductive Json.Number where
  | integer (value : Int)
  | real (value : Float)

/-- A JSON value. An object is given by its members, each behind its key. -/
inductive Json where
  | null
  | bool (value : Bool)
  | number (value : Json.Number)
  | string (value : String)
  | array (items : List Json)
  | object (members : List (String × Json))

namespace Json

/-- Why a text is not a JSON document. -/
inductive Fault where
  /-- The text ends before the document does. -/
  | unexpectedEnd
  /-- No document begins like this. -/
  | malformed
  deriving DecidableEq

def Fault.category : Fault → String
  | .unexpectedEnd => "eof"
  | .malformed => "syntax"

/-- The types of JSON values. The two truth values count as types of their own. -/
inductive Kind where
  | null
  | false
  | true
  | object
  | array
  | string
  | number
  deriving DecidableEq

def Kind.name : Kind → String
  | .null => "Null"
  | .false => "False"
  | .true => "True"
  | .object => "Object"
  | .array => "Array"
  | .string => "String"
  | .number => "Number"

def kind : Json → Kind
  | .null => .null
  | .bool Bool.false => .false
  | .bool Bool.true => .true
  | .number _ => .number
  | .string _ => .string
  | .array _ => .array
  | .object _ => .object

/-- What a place in a document asks for. -/
inductive Expected where
  | object
  | string
  | bool
  | u64
  | u32
  | i64
  | array
  deriving DecidableEq

def Expected.name : Expected → String
  | .object => "object"
  | .string => "string"
  | .bool => "bool"
  | .u64 => "u64"
  | .u32 => "u32"
  | .i64 => "i64"
  | .array => "array"

def ofNat (n : Nat) : Json := .number (.integer n)

/-- The members with `key` bound to `value`, which replaces what it was bound to before. -/
def bindMember (members : List (String × Json)) (key : String) (value : Json) : List (String × Json) :=
  members.filter (fun m => m.1 != key) ++ [(key, value)]

end Json
end WireFormat
