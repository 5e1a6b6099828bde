import WireFormat.Error

/-! Typed access to JSON values. A value of another type than the one asked for is refused with both
    types named; nothing is substituted for it. -/

namespace WireFormat.Json

/-- The failure of a place that asks for `expected` and finds `value`. -/
def mismatch (expected : Expected) (value : Json) : Error := .jsonType expected value.kind

/-! ### The value as it stands -/

def integer? : Json → Option Int
  | .number (.integer value) => some value
  | _ => none

/-- A natural number that fits 64 bits. -/
def nat64? (value : Json) : Option Nat :=
  match value.integer? with
  | some n => if 0 ≤ n ∧ n.toNat < UInt64.size then some n.toNat else none
  | none => none

def asString : Json → Except Error String
  | .string text => .ok text
  | value => .error (mismatch .string value)

def asBool : Json → Except Error Bool
  | .bool b => .ok b
  | value => .error (mismatch .bool value)

def asArray : Json → Except Error (List Json)
  | .array items => .ok items
  | value => .error (mismatch .array value)

def asObject : Json → Except Error (List (String × Json))
  | .object members => .ok members
  | value => .error (mismatch .object value)

def asU64 (value : Json) : Except Error Nat :=
  match value.nat64? with
  | some n => .ok n
  | none => .error (mismatch .u64 value)

def asU32 (value : Json) : Except Error Nat :=
  match value.nat64? with
  | some n => if n < UInt32.size then .ok n else .error (mismatch .u32 value)
  | none => .error (mismatch .u32 value)

def asI64 (value : Json) : Except Error Int :=
  match value.integer? with
  | some n => if Int64.minValue.toInt ≤ n ∧ n ≤ Int64.maxValue.toInt then .ok n else .error (mismatch .i64 value)
  | none => .error (mismatch .i64 value)

/-! ### Members of objects -/

def hasMember (value : Json) (key : String) : Bool :=
  match value with
  | .object members => (members.lookup key).isSome
  | _ => false

def member (value : Json) (key : String) : Except Error Json := do
  let members ← value.asObject
  match members.lookup key with
  | some found => .ok found
  | none => .error (.missingKey key)

/-- The member `key` of an object, as `get` takes it. -/
def memberAs {α : Type} (value : Json) (get : Json → Except Error α) (key : String) : Except Error α := do
  get (← value.member key)

end WireFormat.Json
