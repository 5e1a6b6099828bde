import WireFormat.Field

/-! Entries: the kinds of things that may be written to a message, with the values to write. Each entry is
    read back through a field of its own. -/

namespace WireFormat

/-- What may be written to a message. -/
inductive Entry where
  | boolean (v : Bool)
  | word (n : Nat) (order : ByteOrder) (v : Word n)
  | bytes (b : Bytes)
  /-- The first `length` bytes of a source that may be absent. -/
  | copy (source : Option Bytes) (length : Nat)
  /-- The bytes that a text spells in hexadecimal digits. -/
  | hex (text : String)
  /-- An integer of `bits` bits in groups of seven. -/
  | varint (bits : Nat) (v : BitVec bits)
  | varints (bits : Nat) (vs : List (BitVec bits))
  | value (s : Schema) (v : s.Value)
  | values (s : Schema) (vs : List s.Value)
  | valueLists (s : Schema) (vss : List (List s.Value))

namespace Entry

def encode : Entry → Encoder
  | boolean v => Encoder.boolean v
  | word _ order v => Encoder.word order v
  | bytes b => Encoder.bytes b
  | copy source length => Encoder.copy source length
  | hex text => Encoder.hex text
  | varint bits v => Encoder.varint bits v.toNat
  | varints bits vs => Encoder.list (fun v => Encoder.varint bits v.toNat) vs
  | value s v => s.codec.encode v
  | values s vs => Encoder.list s.codec.encode vs
  | valueLists s vss => Encoder.nested s.codec.encode vss

/-- The field through which an entry is read back. -/
def field : Entry → Field
  | boolean _ => .boolean
  | word n order _ => .word n order
  | bytes b => .bytes b.length
  | copy source length => .bytes ((source.getD []).take length).length
  | hex text => .hex (text.length / 2)
  | varint bits _ => .varint bits
  | varints bits _ => .varints bits
  | value s _ => .value s
  | values s _ => .values s
  | valueLists s _ => .valueLists s

/-- What is read back: the value written, and for hexadecimal text its lowercase form. -/
def readBack : (e : Entry) → e.field.Result
  | boolean v => v
  | word _ _ v => v
  | bytes b => b
  | copy source length => (source.getD []).take length
  | hex text => text.map Char.toLower
  | varint _ v => v
  | varints _ vs => vs
  | value _ v => v
  | values _ vs => vs
  | valueLists _ vss => vss

end Entry
end WireFormat
