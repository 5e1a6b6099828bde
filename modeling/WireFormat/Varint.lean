import WireFormat.Error

/-! Integers of variable length. A value is cut into groups of seven bits, the lowest first, one group a
    byte; all bytes but the last have their high bit set. Writing takes as few groups as the value needs.
    Reading also accepts groups of zeros after these, up to a total that depends on the width, but no bit
    beyond the width. -/

namespace WireFormat.Varint

/-- The number of groups of seven that hold `bits` bits. -/
def groupsFor (bits : Nat) : Nat := (bits + 6) / 7

/-- The most bytes that a value of `bits` bits may take. -/
def maxSize (bits : Nat) : Nat := groupsFor bits + 1

/-! ### Writing -/

/-- The groups of `value`, if no more than `room` of them stand before the last. -/
def groups : (room : Nat) → (value : Nat) → Option Bytes
  | 0, value => if value < 128 then some [UInt8.ofNat value] else none
  | room + 1, value =>
    if value < 128 then some [UInt8.ofNat value]
    else (groups room (value / 128)).map (UInt8.ofNat (value % 128 + 128) :: ·)

/-- The encoding of `value` as an integer of `bits` bits. A value that is wider than that is refused only
    if its groups exceed the bound for the width. -/
def encode (bits value : Nat) : Except Error Bytes :=
  match groups (groupsFor bits) value with
  | some b => .ok b
  | none => .error (.varintOverflow bits)

/-- The number of bits up to the highest one set. -/
def bitLength (value : Nat) : Nat := if value = 0 then 0 else value.log2 + 1

/-- The number of bytes of the encoding of `value`. -/
def size (value : Nat) : Nat := max 1 (groupsFor (bitLength value))

/-! ### Reading -/

/-- Reads groups for the `bits` bits that are still free, at most `room` of them before the last one. The
    answer comes with the number of bytes looked at, whether a value was found or not. -/
def scan (bits room : Nat) : Bytes → Except Error Nat × Nat
  | [] => (.error .endOfBuffer, 0)
  | b :: rest =>
    let group := b.toNat % 128
    if group >>> bits ≠ 0 then (.error .invalidVarint, 1)
    else if b.toNat < 128 then (.ok group, 1)
    else match room with
      | 0 => (.error .invalidVarint, 1)
      | room + 1 =>
        let (high, looked) := scan (bits - 7) room rest
        (high.map (group + 128 * ·), looked + 1)

/-- The value of `bits` bits that stands in `packed` at `offset`, and the number of its bytes. -/
def decode (bits : Nat) (packed : Bytes) (offset : Nat) : Except Error (Nat × Nat) :=
  if offset ≤ packed.length then
    match scan bits (groupsFor bits) (packed.drop offset) with
    | (.ok value, looked) => .ok (value, looked)
    | (.error e, _) => .error e
  else .error .endOfBuffer

/-- The value of `bits` bits at the front of a stream, and what is left of the stream. The bytes looked
    at are gone, also after a failure. -/
def read (bits : Nat) (stream : Bytes) : Except Error Nat × Bytes :=
  let (result, looked) := scan bits (groupsFor bits) stream
  (result, stream.drop looked)

end WireFormat.Varint
