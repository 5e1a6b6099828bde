import WireFormat.CountRange
import WireFormat.Hex

/-! Cursors: a position in some bytes, and what a reader at that position goes by. -/

namespace WireFormat

/-- A position in some bytes, and the range of counts that reads of lists accept. -/
structure Cursor where
  data : Bytes
  position : Nat
  accepted : CountRange
  deriving DecidableEq

namespace Cursor

/-- The cursor at the start of `b`, which accepts every count. -/
def ofBytes (b : Bytes) : Cursor := ⟨b, 0, .all⟩

instance : Inhabited Cursor := ⟨ofBytes []⟩

def accepting (c : Cursor) (r : CountRange) : Cursor := { c with accepted := r }

def moveTo (c : Cursor) (position : Nat) : Cursor := { c with position }

def unread (c : Cursor) : Bytes := c.data.drop c.position

/-- The number of bytes before and after the cursor. -/
def size (c : Cursor) : Nat := c.data.length

def isExhausted (c : Cursor) : Bool := c.unread.isEmpty

/-- All bytes, before and after the cursor, in hexadecimal digits. -/
def toHex (c : Cursor) : String := Hex.encode c.data

end Cursor
end WireFormat
