import WireFormat.Schema

/-! Fields: the kinds of things that may be read from a message. -/

namespace WireFormat

/-- What may be read from a message. -/
inductive Field where
  | boolean
  | word (n : Nat) (order : ByteOrder)
  | bytes (length : Nat)
  /-- The next `length` bytes in hexadecimal digits. -/
  | hex (length : Nat)
  /-- An integer of `bits` bits in groups of seven. -/
  | varint (bits : Nat)
  | varints (bits : Nat)
  | value (s : Schema)
  | values (s : Schema)
  | valueLists (s : Schema)

namespace Field

/-- What the reading of a field gives. -/
@[reducible] def Result : Field → Type
  | boolean => Bool
  | word n _ => Word n
  | bytes _ => Bytes
  | hex _ => String
  | varint bits => BitVec bits
  | varints bits => List (BitVec bits)
  | value s => s.Value
  | values s => List s.Value
  | valueLists s => List (List s.Value)

def decode : (f : Field) → Decoder f.Result
  | boolean => Decoder.boolean
  | word n order => Decoder.word n order
  | bytes length => Decoder.take length
  | hex length => Hex.encode <$> Decoder.take length
  | varint bits => Decoder.varint bits
  | varints bits => Decoder.varints bits
  | value s => s.codec.decode
  | values s => Decoder.list s.codec.decode
  | valueLists s => Decoder.nested s.codec.decode

end Field
end WireFormat
