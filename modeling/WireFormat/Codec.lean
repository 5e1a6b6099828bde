import WireFormat.Encoder
import WireFormat.Decoder
import WireFormat.Json.Access

/-! Codecs: the values of a type in bytes and in JSON. -/

namespace WireFormat

/-- The two forms of the values of `α`. -/
structure Codec (α : Type) where
  /-- The number of bytes of a value. -/
  size : α → Nat
  encode : α → Encoder
  decode : Decoder α
  /-- The JSON form of a value. -/
  toJson : α → Json
  /-- Loads a value from its JSON form. -/
  ofJson : Json → Except Error α
  /-- The value that some bytes consist of. -/
  ofBytes : Bytes → Except Error α := decode.whole

namespace Codec

variable {α : Type}

/-! ### Bytes -/

def toBytes (c : Codec α) (v : α) : Except Error Bytes :=
  match c.encode v [] with
  | (.ok (), b) => .ok b
  | (.error e, _) => .error e

def toHex (c : Codec α) (v : α) : Except Error String := (c.toBytes v).map Hex.encode

def ofHex (c : Codec α) (text : String) : Except Error α := do c.ofBytes (← Bytes.ofHex text)

/-! ### JSON -/

def ofJsonMember (c : Codec α) (value : Json) (key : String) : Except Error α :=
  value.memberAs c.ofJson key

def listToJson (c : Codec α) (vs : List α) : Json := .array (vs.map c.toJson)

/-- Loads each element of an array, up to the first that fails. -/
def listOfJson (c : Codec α) (value : Json) : Except Error (List α) := do
  (← value.asArray).mapM c.ofJson

def nestedToJson (c : Codec α) (vss : List (List α)) : Json := .array (vss.map c.listToJson)

def nestedOfJson (c : Codec α) (value : Json) : Except Error (List (List α)) := do
  (← value.asArray).mapM c.listOfJson

/-! ### Lists -/

/-- A list of values: a count and the elements in bytes, an array in JSON. -/
def list (c : Codec α) : Codec (List α) where
  size vs := Varint.size vs.length + (vs.map c.size).foldr (· + ·) 0
  encode := Encoder.list c.encode
  decode := Decoder.list c.decode
  toJson := c.listToJson
  ofJson := c.listOfJson

end Codec
end WireFormat
