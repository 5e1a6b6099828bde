import WireFormat.Field
import WireFormat.Reading

/-! Fields read through a cursor. The reading of a value moves the cursor part by part and leaves it where
    a failure finds it; the reading of a field as a whole puts it back. -/

namespace WireFormat

/-- Reads a blob as the next `n` bytes. -/
def Blob.read (n : Nat) : Reading (Blob n) := do Reading.lift (Blob.ofBytes n (← Reading.take n false))

def Transfer.read : Reading Transfer := do
  let version ← Reading.word 1 .little false
  let amount ← Reading.varint 64 false
  let fee ← Reading.word 32 .little false
  let unlock ← Reading.boolean false
  let inputs ← Reading.list (Blob.read 32) false
  let outputs ← Reading.restoring false (Sequence.mk <$> Reading.list (Blob.read 4) false)
  return { version, amount, fee, unlock, inputs, outputs }

def Schema.read : (s : Schema) → Reading s.Value
  | blob n => Blob.read n
  | transfer => Transfer.read
  | list s => Reading.list s.read false
  | sequence s => Sequence.mk <$> Reading.list s.read false

/-- Reads a field; a peek leaves the cursor where it is. -/
def Field.read : (f : Field) → (peek : Bool) → Reading f.Result
  | boolean => Reading.boolean
  | word n order => Reading.word n order
  | bytes length => Reading.take length
  | hex length => Reading.hex length
  | varint bits => Reading.varint bits
  | varints bits => Reading.varints bits
  | value s => fun peek => Reading.restoring peek s.read
  | values s => Reading.list s.read
  | valueLists s => Reading.nested s.read

end WireFormat
