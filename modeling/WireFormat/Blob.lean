import WireFormat.Codec

/-! Binary values of a fixed size, such as hashes and keys. A blob stands for itself in bytes and for its
    hexadecimal digits in JSON. Blobs are ordered as the numbers whose lowest byte comes first. -/

namespace WireFormat

/-- A binary value of `n` bytes. -/
structure Blob (n : Nat) where
  bytes : Bytes
  length_bytes : bytes.length = n
  deriving DecidableEq

namespace Blob

variable {n : Nat}

def zero : Blob n := ⟨List.replicate n 0, List.length_replicate⟩

instance : Inhabited (Blob n) := ⟨zero⟩

def isZero (p : Blob n) : Bool := p.bytes.all (· == 0)

def get? (p : Blob n) (i : Nat) : Option UInt8 := p.bytes[i]?

/-- The blob with `b` in the place of its byte at `i`; `none` if there is no such byte. -/
def set? (p : Blob n) (i : Nat) (b : UInt8) : Option (Blob n) :=
  if i < n then some ⟨p.bytes.set i b, by simp [p.length_bytes]⟩ else none

/-- The blob of exactly these bytes. -/
def ofBytes (n : Nat) (b : Bytes) : Except Error (Blob n) :=
  if h : b.length = n then .ok ⟨b, h⟩ else .error (.sizeMismatch n b.length)

/-! ### Text -/

def toHex (p : Blob n) : String := Hex.encode p.bytes

/-- The digits, marked as a blob. -/
def describe (p : Blob n) : String := "Pod(" ++ p.toHex ++ ")"

def parse (n : Nat) (text : String) : Except Error (Blob n) := do ofBytes n (← Bytes.ofHex text)

/-! ### Order -/

/-- Blobs are compared from the last byte to the first; the first difference from there decides. -/
instance : Ord (Blob n) := ⟨fun p q => List.compareLex compare p.bytes.reverse q.bytes.reverse⟩

/-- A comparison that could find two blobs not comparable, and never does. -/
def partialCompare (p q : Blob n) : Option Ordering := some (compare p q)

instance : LT (Blob n) := ltOfOrd

/-- The blobs in order. Equal ones are alike, so their order among themselves does not show. -/
def sort (ps : List (Blob n)) : List (Blob n) := ps.mergeSort fun p q => (compare p q).isLE

/-! ### Codec -/

def decode (n : Nat) : Decoder (Blob n) := fun r b =>
  match Decoder.take n r b with
  | .ok (taken, rest) => (ofBytes n taken).map (·, rest)
  | .error e => .error e

/-- A blob is its bytes, without a count, and a string of digits in JSON. -/
def codec (n : Nat) : Codec (Blob n) where
  size _ := n
  encode p := Encoder.bytes p.bytes
  decode := decode n
  toJson p := .string p.toHex
  ofJson value := do parse n (← value.asString)
  ofBytes := ofBytes n

end Blob
end WireFormat
