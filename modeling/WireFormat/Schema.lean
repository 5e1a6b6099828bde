import WireFormat.Transfer

/-! Schemas: the types of values that have a codec, built from blobs and transfers by lists and sequences
    nested to any depth. -/

namespace WireFormat

/-- A type of values. -/
inductive Schema where
  /-- Binary values of `n` bytes. -/
  | blob (n : Nat)
  | transfer
  | list (element : Schema)
  | sequence (element : Schema)

namespace Schema

@[reducible] def Value : Schema → Type
  | blob n => Blob n
  | transfer => Transfer
  | list s => List s.Value
  | sequence s => Sequence s.Value

def decEqValue : (s : Schema) → DecidableEq s.Value
  | blob n => inferInstanceAs (DecidableEq (Blob n))
  | transfer => inferInstanceAs (DecidableEq Transfer)
  | list s => letI := decEqValue s; inferInstanceAs (DecidableEq (List s.Value))
  | sequence s => letI := decEqValue s; inferInstanceAs (DecidableEq (Sequence s.Value))

instance (s : Schema) : DecidableEq s.Value := decEqValue s

def codec : (s : Schema) → Codec s.Value
  | blob n => Blob.codec n
  | transfer => Transfer.codec
  | list s => s.codec.list
  | sequence s => Sequence.codec s.codec

end Schema
end WireFormat
