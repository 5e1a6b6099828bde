import WireFormat.Error

/-! Integers of a fixed number of bytes, in either byte order. Packing is a bijection between the
    integers of `n` bytes and the strings of `n` bytes. -/

namespace WireFormat

/-- The order of the bytes of a packed integer. -/
inductive ByteOrder where
  | little
  | big
  deriving DecidableEq

/-- The order that is meant where none is named. -/
instance : Inhabited ByteOrder := ⟨.little⟩

/-- An unsigned integer of `n` bytes. -/
abbrev Word (n : Nat) := BitVec (8 * n)

namespace Packed

/-- The `n` lowest digits of `value` to the base 256, the lowest first. -/
def digits : (n : Nat) → (value : Nat) → Bytes
  | 0, _ => []
  | n + 1, value => UInt8.ofNat value :: digits n (value / 256)

/-- The number whose digits to the base 256 are given, the lowest first. -/
def ofDigits : Bytes → Nat
  | [] => 0
  | b :: rest => b.toNat + 256 * ofDigits rest

/-- The bytes in the order asked for, from the lowest first or back. -/
def arrange : ByteOrder → Bytes → Bytes
  | .little, b => b
  | .big, b => b.reverse

def encode {n : Nat} (order : ByteOrder) (value : Word n) : Bytes :=
  arrange order (digits n value.toNat)

/-- The integer whose packed form is `b`. -/
def ofBytes (n : Nat) (order : ByteOrder) (b : Bytes) : Word n :=
  BitVec.ofNat (8 * n) (ofDigits (arrange order b))

/-- The integer of `n` bytes that stands in `packed` at `offset`. -/
def decode (n : Nat) (order : ByteOrder) (packed : Bytes) (offset : Nat) : Except Error (Word n) :=
  if offset + n ≤ packed.length then .ok (ofBytes n order ((packed.drop offset).take n))
  else .error .endOfBuffer

end Packed
end WireFormat
