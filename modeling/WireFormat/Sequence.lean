import WireFormat.Codec

/-! Growable sequences of values that have a codec. -/

namespace WireFormat

/-- A sequence of values, given by the list of its elements. -/
structure Sequence (α : Type) where
  toList : List α
  deriving DecidableEq

namespace Sequence

variable {α : Type}

def empty : Sequence α := ⟨[]⟩

instance : Inhabited (Sequence α) := ⟨empty⟩

def length (s : Sequence α) : Nat := s.toList.length

def isEmpty (s : Sequence α) : Bool := s.toList.isEmpty

def push (s : Sequence α) (v : α) : Sequence α := ⟨s.toList ++ [v]⟩

def last? (s : Sequence α) : Option α := s.toList.getLast?

/-- The sequence with `v` in the place of its last element; `none` if there is no element. -/
def setLast? (s : Sequence α) (v : α) : Option (Sequence α) :=
  if s.toList.isEmpty then none else some ⟨s.toList.dropLast ++ [v]⟩

def extend (s : Sequence α) (vs : List α) : Sequence α := ⟨s.toList ++ vs⟩

def append (s t : Sequence α) : Sequence α := s.extend t.toList

def get? (s : Sequence α) (i : Nat) : Option α := s.toList[i]?

/-- The sequence with `v` in the place of its element at `i`; `none` if there is no such element. -/
def set? (s : Sequence α) (i : Nat) (v : α) : Option (Sequence α) :=
  if i < s.toList.length then some ⟨s.toList.set i v⟩ else none

def reverse (s : Sequence α) : Sequence α := ⟨s.toList.reverse⟩

/-- A sequence has the forms of the list of its elements. -/
def codec (c : Codec α) : Codec (Sequence α) where
  size s := c.list.size s.toList
  encode s := c.list.encode s.toList
  decode := Sequence.mk <$> c.list.decode
  toJson s := c.list.toJson s.toList
  ofJson value := Sequence.mk <$> c.list.ofJson value

end Sequence
end WireFormat
