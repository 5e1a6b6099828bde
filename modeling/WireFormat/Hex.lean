/-! Hexadecimal text. A byte is written as two lowercase digits, the high one first, and read from two
    digits of either case. Reading is exact: a text of odd length or with another character in it is
    refused, and the refusal says where. -/

namespace WireFormat

/-- A finite string of bytes. -/
abbrev Bytes := List UInt8

namespace Hex

/-- Why a text is not the hexadecimal form of some bytes. -/
inductive Fault where
  /-- The UTF-8 form of the text has an odd number of bytes. -/
  | oddLength (bytes : Nat)
  /-- A character that is no digit; the position is its byte offset in the UTF-8 form. -/
  | invalidCharacter (character : Char) (position : Nat)
  deriving DecidableEq

/-! ### Writing -/

def byteDigits (b : UInt8) : List Char := [Nat.digitChar (b.toNat / 16), Nat.digitChar (b.toNat % 16)]

def digits (b : Bytes) : List Char := b.flatMap byteDigits

def encode (b : Bytes) : String := String.ofList (digits b)

/-! ### Reading -/

def digitValue? (c : Char) : Option Nat :=
  if '0' ≤ c ∧ c ≤ '9' then some (c.toNat - 48)
  else if 'a' ≤ c ∧ c ≤ 'f' then some (c.toNat - 87)
  else if 'A' ≤ c ∧ c ≤ 'F' then some (c.toNat - 55)
  else none

/-- The values of the digits of a text that begins at the byte offset `position`, or the first of its
    characters that is no digit. -/
def digitValues (position : Nat) : List Char → Except Fault (List Nat)
  | [] => .ok []
  | c :: text =>
    match digitValue? c with
    | none => .error (.invalidCharacter c position)
    | some value => (digitValues (position + c.utf8Size) text).map (value :: ·)

/-- The bytes whose high and low halves alternate in the list. -/
def joinHalves : List Nat → Bytes
  | high :: low :: halves => UInt8.ofNat (16 * high + low) :: joinHalves halves
  | _ => []

/-- The bytes of a hexadecimal text. The length is looked at before the characters. -/
def decode (text : String) : Except Fault Bytes :=
  if text.utf8ByteSize % 2 = 1 then .error (.oddLength text.utf8ByteSize)
  else (digitValues 0 text.toList).map joinHalves

/-! ### Reading formatted text -/

/-- The characters that lay a text out and say nothing: tabs, line ends and blanks. -/
def isLayout (c : Char) : Bool := c == '\t' || c == '\n' || c == '\r' || c == ' '

/-- `text` without the mark `0x` at its front, if it has one. -/
def dropMark : List Char → List Char
  | '0' :: 'x' :: text => text
  | text => text

/-- The bytes of a hexadecimal text with layout anywhere and one mark `0x` at most in front. The layout
    is removed first, so it may stand inside the mark; a fault speaks of the text that remains. -/
def decodeFormatted (text : String) : Except Fault Bytes :=
  decode (String.ofList (dropMark (text.toList.filter fun c => !isLayout c)))

end Hex
end WireFormat
