import WireFormat.Hex
import WireFormat.Json.Basic
import WireFormat.Text

/-! What can go wrong when values are written, read or loaded, and the sentence that says so. -/

namespace WireFormat

/-- The arguments that an operation may refuse. -/
inductive Argument where
  /-- The source of a raw copy, which is absent although bytes are asked of it. -/
  | source
  /-- The version of a transfer, which does not fit one byte. -/
  | version
  deriving DecidableEq

/-- Why an operation fails. -/
inductive Error where
  /-- The input ends before the value does. -/
  | endOfBuffer
  /-- Bytes follow the value where none may. -/
  | extraData (bytes : Nat)
  /-- The groups are too many, or hold bits that the width does not have. -/
  | invalidVarint
  /-- The value needs more groups than a value of this many bits may take. -/
  | varintOverflow (bits : Nat)
  /-- A value of fixed size is given another number of bytes. -/
  | sizeMismatch (expected found : Nat)
  | invalidLength (count : Nat)
  | invalidArgument (argument : Argument)
  | hex (fault : Hex.Fault)
  | json (fault : Json.Fault)
  /-- A JSON value has another type than its place asks for. -/
  | jsonType (expected : Json.Expected) (found : Json.Kind)
  /-- A JSON object has no such member. -/
  | missingKey (key : String)
  deriving DecidableEq

def Hex.Fault.message : Hex.Fault → String
  | .oddLength bytes => "invalid hex length: " ++ toString bytes
  | .invalidCharacter c position =>
    "invalid hex character " ++ Text.quoted c ++ " at position " ++ toString position

def Argument.message : Argument → String
  | .source => "cannot read bytes from null pointer"
  | .version => "version"

/-- The sentence for a failure; for a text that is not JSON, its category. -/
def Error.message : Error → String
  | .endOfBuffer => "unexpected end of buffer"
  | .extraData bytes => "extra data found: " ++ toString bytes ++ " bytes"
  | .invalidVarint => "invalid varint"
  | .varintOverflow bits =>
    "varint exceeds the encoding bound for a " ++ toString bits ++ "-bit value"
  | .sizeMismatch expected found =>
    "size mismatch: expected " ++ toString expected ++ " bytes, found " ++ toString found
  | .invalidLength count => "invalid length: " ++ toString count
  | .invalidArgument argument => "invalid argument: " ++ argument.message
  | .hex fault => "invalid hex: " ++ fault.message
  | .json fault => fault.category
  | .jsonType expected found =>
    "JSON value is of the wrong type: expected " ++ expected.name ++ ", got " ++ found.name
  | .missingKey key => "missing JSON key: '" ++ key ++ "'"

/-- The bytes that `text` spells in hexadecimal digits. -/
def Bytes.ofHex (text : String) : Except Error Bytes := (Hex.decode text).mapError .hex

end WireFormat
