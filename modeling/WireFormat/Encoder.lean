import WireFormat.Packed
import WireFormat.Varint

/-! Encoders: what writes a value to the end of a message. A list of values is a count followed by the
    elements, so lists of lists nest. An encoder that fails half-way leaves what it wrote before. -/

namespace WireFormat

/-- A writing to the end of the bytes written so far. It gives what is there afterwards, also if it fails. -/
abbrev Encoder := Bytes → Except Error Unit × Bytes

namespace Encoder

def nothing : Encoder := fun data => (.ok (), data)

def fail (e : Error) : Encoder := fun data => (.error e, data)

def bytes (b : Bytes) : Encoder := fun data => (.ok (), data ++ b)

/-- Writes the bytes of `result`, or fails as it does. -/
def ofResult : Except Error Bytes → Encoder
  | .ok b => bytes b
  | .error e => fail e

/-- `first`, and then `next` unless `first` fails. -/
def andThen (first next : Encoder) : Encoder := fun data =>
  match first data with
  | (.ok (), written) => next written
  | (.error e, written) => (.error e, written)

/-- Writes the elements in order, up to the first that fails. -/
def each {α : Type} (element : α → Encoder) : List α → Encoder
  | [] => nothing
  | v :: vs => andThen (element v) (each element vs)

/-! ### Single values -/

/-- One byte, 1 for true and 0 for false. -/
def boolean (v : Bool) : Encoder := bytes [if v then 1 else 0]

/-- A packed integer. Its digits stand with the lowest first, so only the other order has to be packed apart. -/
def word {n : Nat} (order : ByteOrder) (v : Word n) : Encoder :=
  match order with
  | .little => bytes (Packed.digits n v.toNat)
  | .big => bytes (Packed.encode .big v)

def hex (text : String) : Encoder := ofResult (Bytes.ofHex text)

/-- The first `length` bytes of a source that may be absent. An absent source has no bytes to give, and is
    refused if any are asked of it. -/
def copy (source : Option Bytes) (length : Nat) : Encoder :=
  match source with
  | some b => bytes (b.take length)
  | none => if length = 0 then nothing else fail (.invalidArgument .source)

def varint (bits value : Nat) : Encoder := ofResult (Varint.encode bits value)

/-! ### Lists -/

/-- The number of elements of a list, as an integer of 64 bits. -/
def count (n : Nat) : Encoder :=
  if n < UInt64.size then varint 64 n else fail (.invalidLength n)

def list {α : Type} (element : α → Encoder) (vs : List α) : Encoder :=
  andThen (count vs.length) (each element vs)

/-- A count and the inner lists, each with its own count. -/
def nested {α : Type} (element : α → Encoder) (vss : List (List α)) : Encoder :=
  andThen (count vss.length) (each (list element) vss)

end Encoder
end WireFormat
