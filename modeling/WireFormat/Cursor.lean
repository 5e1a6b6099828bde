import WireFormat.Cursor.Field
import WireFormat.Message

/-! Reading a message through a cursor. A read that succeeds moves the cursor past what it read, unless it
    is a peek; a step that fails changes nothing. -/

namespace WireFormat.Cursor

/-! ### Making a cursor -/

def ofMessage (m : Message) : Cursor := ofBytes m.data

/-- The cursor at the start of the bytes that `text` spells in hexadecimal digits. -/
def ofHex (text : String) : Except Error Cursor := (Bytes.ofHex text).map ofBytes

/-! ### Steps -/

def read (c : Cursor) (f : Field) (peek : Bool) : Except Error f.Result × Cursor := f.read peek c

/-- Moves the cursor to `position`, which may lie before it. -/
def reset (c : Cursor) (position : Nat) : Except Error Unit × Cursor :=
  if position ≤ c.data.length then (.ok (), c.moveTo position) else (.error .endOfBuffer, c)

/-- Moves the cursor `n` bytes on. -/
def skip (c : Cursor) (n : Nat) : Except Error Unit × Cursor := c.reset (c.position + n)

/-- Forgets the bytes before the cursor. -/
def compact (c : Cursor) : Cursor := { c with data := c.unread, position := 0 }

/-- One use of a cursor. -/
inductive Step where
  | read (f : Field) (peek : Bool)
  | skip (n : Nat)
  | reset (position : Nat)
  | compact
  | accept (r : CountRange)

/-- What a step gives if it succeeds. -/
@[reducible] def Step.Result : Step → Type
  | read f _ => f.Result
  | skip _ => Unit
  | reset _ => Unit
  | compact => Unit
  | accept _ => Unit

def step (c : Cursor) : (s : Step) → Except Error s.Result × Cursor
  | .read f peek => c.read f peek
  | .skip n => c.skip n
  | .reset position => c.reset position
  | .compact => (.ok (), c.compact)
  | .accept r => (.ok (), c.accepting r)

/-- Takes steps one after the other. A failure does not keep the later ones from being taken. -/
def run (c : Cursor) : List Step → List (Σ s : Step, Except Error s.Result) × Cursor
  | [] => ([], c)
  | s :: steps =>
    let (outcome, next) := c.step s
    let (outcomes, last) := next.run steps
    (⟨s, outcome⟩ :: outcomes, last)

end WireFormat.Cursor
