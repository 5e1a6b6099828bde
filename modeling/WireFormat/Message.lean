import WireFormat.Entry

/-! Messages under construction, which grow at their end. -/

namespace WireFormat

/-- The bytes written so far. -/
structure Message where
  data : Bytes
  deriving DecidableEq

namespace Message

def empty : Message := ⟨[]⟩

instance : Inhabited Message := ⟨empty⟩

def append (m : Message) (e : Entry) : Except Error Unit × Message :=
  let (outcome, data) := e.encode m.data
  (outcome, ⟨data⟩)

/-- Writes entries one after the other. A failure does not keep the later ones from being written. -/
def appendAll (m : Message) : List Entry → List (Except Error Unit) × Message
  | [] => ([], m)
  | e :: es =>
    let (outcome, next) := m.append e
    let (outcomes, last) := next.appendAll es
    (outcome :: outcomes, last)

def size (m : Message) : Nat := m.data.length

def isEmpty (m : Message) : Bool := m.data.isEmpty

def get? (m : Message) (i : Nat) : Option UInt8 := m.data[i]?

/-- The message with `b` in the place of its byte at `i`; `none` if there is no such byte. -/
def set? (m : Message) (i : Nat) (b : UInt8) : Option Message :=
  if i < m.data.length then some ⟨m.data.set i b⟩ else none

def toHex (m : Message) : String := Hex.encode m.data

end Message
end WireFormat
