import WireFormat.Cursor.Basic
import WireFormat.Packed
import WireFormat.Varint

/-! Readings: what takes a value from where a cursor stands, and moves the cursor. A single value is
    looked for before the cursor moves. A list moves it element by element, so a list that breaks off has
    to put the cursor back; `restoring` does so, and serves peeks as well. -/

namespace WireFormat

/-- A reading of a value through a cursor. It gives the cursor as it is afterwards, also if it fails. -/
def Reading (α : Type) := Cursor → Except Error α × Cursor

namespace Reading

variable {α β : Type}

/-- Gives `result` and leaves the cursor where it is. -/
def lift (result : Except Error α) : Reading α := fun c => (result, c)

/-- Reads a value, and then what it calls for from where the cursor stands by then. -/
def andThen (m : Reading α) (next : α → Reading β) : Reading β := fun c =>
  match m c with
  | (.ok v, moved) => next v moved
  | (.error e, moved) => (.error e, moved)

instance : Monad Reading where
  pure v := lift (.ok v)
  bind := andThen

/-- `m`, with the cursor put back to where it was if `m` fails or if this is a peek. -/
def restoring (peek : Bool) (m : Reading α) : Reading α := fun c =>
  match m c with
  | (.ok v, moved) => (.ok v, if peek then moved.moveTo c.position else moved)
  | (.error e, moved) => (.error e, moved.moveTo c.position)

/-! ### Single values -/

def word (n : Nat) (order : ByteOrder) (peek : Bool) : Reading (Word n) := fun c =>
  match Packed.decode n order c.data c.position with
  | .ok v => (.ok v, if peek then c else c.moveTo (c.position + n))
  | .error e => (.error e, c)

def boolean (peek : Bool) : Reading Bool := return (← word 1 .little peek) == 1

def take (n : Nat) (peek : Bool) : Reading Bytes := fun c =>
  let stop := c.position + n
  if stop ≤ c.data.length then (.ok (c.unread.take n), if peek then c else c.moveTo stop)
  else (.error .endOfBuffer, c)

def hex (n : Nat) (peek : Bool) : Reading String := return Hex.encode (← take n peek)

def varint (bits : Nat) (peek : Bool) : Reading (BitVec bits) := fun c =>
  match Varint.decode bits c.data c.position with
  | .ok (v, consumed) => (.ok (BitVec.ofNat bits v), if peek then c else c.moveTo (c.position + consumed))
  | .error e => (.error e, c)

/-! ### Lists -/

def accept (n : Nat) : Reading Nat := fun c =>
  if c.accepted.contains n then (.ok n, c) else (.error (.invalidLength n), c)

/-- The number of elements of a list. It is read even if it is not accepted. -/
def count : Reading Nat := do accept (← varint 64 false).toNat

/-- An element of a list of `declared` elements. If it leaves the cursor where it was and the accepted
    counts have no upper end, there may not be more elements than unread bytes. -/
def counted (element : Reading α) (declared : Nat) : Reading α := fun c =>
  match element c with
  | (.ok v, moved) =>
    if moved.position = c.position ∧ moved.accepted.isCapped = false ∧ moved.unread.length < declared then
      (.error (.invalidLength declared), moved)
    else (.ok v, moved)
  | (.error e, moved) => (.error e, moved)

/-- Reads `n` elements one after the other, up to the first that fails. -/
def each (element : Reading α) : (n : Nat) → Reading (List α)
  | 0 => return []
  | n + 1 => do
    let v ← element
    let vs ← each element n
    return v :: vs

def list (element : Reading α) (peek : Bool) : Reading (List α) := restoring peek do
  let n ← count
  each (counted element n) n

/-- A count and the inner lists, each with its own count. -/
def nested (element : Reading α) (peek : Bool) : Reading (List (List α)) := restoring peek do
  let n ← count
  each (list element false) n

def varints (bits : Nat) (peek : Bool) : Reading (List (BitVec bits)) := restoring peek do
  let n ← count
  each (varint bits false) n

end Reading
end WireFormat
