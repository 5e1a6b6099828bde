import WireFormat.CountRange
import WireFormat.Packed
import WireFormat.Varint

/-! Decoders: what reads a value from the front of some bytes. Counts are checked against the range that
    the reader accepts before any element is read, and a list whose elements take no bytes has no more of
    them than bytes follow its count, unless the range has an upper end. -/

namespace WireFormat

/-- A reading of a value from the front of the unread bytes, under a range of accepted counts. It gives
    the value and the bytes that follow it. -/
def Decoder (α : Type) := CountRange → Bytes → Except Error (α × Bytes)

namespace Decoder

variable {α β : Type}

def give (v : α) : Decoder α := fun _ b => .ok (v, b)

/-- Reads a value, and then what it calls for. -/
def andThen (d : Decoder α) (next : α → Decoder β) : Decoder β := fun r b =>
  match d r b with
  | .ok (v, rest) => next v r rest
  | .error e => .error e

instance : Monad Decoder where
  pure := give
  bind := andThen

theorem pure_apply (v : α) (r : CountRange) (b : Bytes) : (pure v : Decoder α) r b = .ok (v, b) := rfl

theorem bind_apply (d : Decoder α) (next : α → Decoder β) (r : CountRange) (b : Bytes) :
    (d >>= next) r b = match d r b with
      | .ok (v, rest) => next v r rest
      | .error e => .error e := rfl

theorem map_apply (f : α → β) (d : Decoder α) (r : CountRange) (b : Bytes) :
    (f <$> d) r b = match d r b with
      | .ok (v, rest) => .ok (f v, rest)
      | .error e => .error e := rfl

/-! ### Single values -/

def take (n : Nat) : Decoder Bytes := fun _ b =>
  if n ≤ b.length then .ok (b.take n, b.drop n) else .error .endOfBuffer

def word (n : Nat) (order : ByteOrder) : Decoder (Word n) := fun _ b =>
  match Packed.decode n order b 0 with
  | .ok v => .ok (v, b.drop n)
  | .error e => .error e

/-- One byte, of which 1 means true and all else false. -/
def boolean : Decoder Bool := return (← word 1 .little) == 1

def varint (bits : Nat) : Decoder (BitVec bits) := fun _ b =>
  match Varint.decode bits b 0 with
  | .ok (v, consumed) => .ok (BitVec.ofNat bits v, b.drop consumed)
  | .error e => .error e

/-! ### Lists -/

def accept (n : Nat) : Decoder Nat := fun r b =>
  if r.contains n then .ok (n, b) else .error (.invalidLength n)

/-- The number of elements of a list, which has to be accepted. -/
def count : Decoder Nat := do accept (← varint 64).toNat

/-- An element of a list of `declared` elements. If it takes no bytes and the range of counts has no upper
    end, there may not be more elements than unread bytes: such elements do not exhaust the input, so
    nothing else would bound their number. -/
def counted (element : Decoder α) (declared : Nat) : Decoder α := fun r b =>
  match element r b with
  | .ok (v, rest) =>
    if rest.length = b.length ∧ r.isCapped = false ∧ rest.length < declared then
      .error (.invalidLength declared)
    else .ok (v, rest)
  | .error e => .error e

def each (element : Decoder α) : (n : Nat) → Decoder (List α)
  | 0 => return []
  | n + 1 => do
    let v ← element
    let vs ← each element n
    return v :: vs

def list (element : Decoder α) : Decoder (List α) := do
  let n ← count
  each (counted element n) n

/-- A count and the inner lists, each with its own count. -/
def nested (element : Decoder α) : Decoder (List (List α)) := do
  let n ← count
  each (list element) n

def varints (bits : Nat) : Decoder (List (BitVec bits)) := do
  let n ← count
  each (varint bits) n

/-! ### Whole inputs -/

/-- The value that `b` consists of, under no limit on counts. -/
def whole (d : Decoder α) (b : Bytes) : Except Error α :=
  match d .all b with
  | .ok (v, []) => .ok v
  | .ok (_, rest) => .error (.extraData rest.length)
  | .error e => .error e

end Decoder
end WireFormat
