import WireFormat.Json.Basic

/-! The number that a decimal literal stands for. An integer that fits 64 bits is kept exactly. Any other
    literal becomes a double: its first digits, as many as fit 64 bits, times or divided by the double
    nearest to the power of ten that places the point. -/

namespace WireFormat.Json

/-- The parts of a number as they are spelled: the sign, the digits before the point, the digits after it
    if there is a point, and the power of ten if there is one. -/
structure Literal where
  negative : Bool
  whole : List Char
  fraction : Option (List Char)
  exponent : Option Int

namespace Literal

def fits (n : Nat) : Bool := decide (n < UInt64.size)

/-- Appends digits to `significand` as long as it fits 64 bits. The second number counts the digits that
    are left out, beginning with the first that does not fit. -/
def absorb (significand : Nat) : List Char → Nat × Nat
  | [] => (significand, 0)
  | d :: rest =>
    let next := 10 * significand + (d.toNat - 48)
    if fits next then absorb next rest else (significand, rest.length + 1)

def power (k : Nat) : Float := Float.ofScientific 1 false k

/-- `significand * 10 ^ exponent` as a double, by steps that stay in the range of doubles; `none` if it is
    too large. -/
def scale (significand : Nat) (exponent : Int) : Option Float :=
  let value := (UInt64.ofNat significand).toFloat
  if significand = 0 then some 0
  else if 308 < exponent then none
  else if 0 ≤ exponent then
    let scaled := value * power exponent.toNat
    if scaled.isInf then none else some scaled
  else if -308 ≤ exponent then some (value / power (-exponent).toNat)
  else if -616 ≤ exponent then some (value / power 308 / power (-exponent - 308).toNat)
  else some 0

def toReal? (l : Literal) : Option Float :=
  let (head, dropped) := absorb 0 l.whole
  let tail := l.fraction.getD []
  let (significand, unused) := absorb head tail
  let placed : Int := dropped - (tail.length - unused : Nat)
  (scale significand (placed + l.exponent.getD 0)).map fun x => if l.negative then -x else x

/-- The integer that the literal spells, if it has neither point nor power and the integer fits 64 bits. A
    zero with a sign is no integer. -/
def toInteger? (l : Literal) : Option Int :=
  match l.fraction, l.exponent, absorb 0 l.whole with
  | none, none, (n, 0) =>
    if l.negative then (if 0 < n ∧ Int64.minValue.toInt ≤ -n then some (-n) else none) else some n
  | _, _, _ => none

/-- The number that the literal stands for; `none` if no double is large enough. -/
def value? (l : Literal) : Option Number :=
  match l.toInteger? with
  | some n => some (.integer n)
  | none => l.toReal?.map .real

end Literal
end WireFormat.Json
