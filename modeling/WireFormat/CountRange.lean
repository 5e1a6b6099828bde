/-! Ranges of counts that a reader of untrusted input accepts. -/

namespace WireFormat

inductive Bound where
  | unbounded
  | included (value : Nat)
  | excluded (value : Nat)
  deriving DecidableEq

/-- A range of counts, given by its two ends. A range whose ends cross is empty. -/
structure CountRange where
  lower : Bound
  upper : Bound
  deriving DecidableEq

namespace CountRange

def all : CountRange := ⟨.unbounded, .unbounded⟩

def exactly (n : Nat) : CountRange := ⟨.included n, .included n⟩

def halfOpen (a b : Nat) : CountRange := ⟨.included a, .excluded b⟩

def closed (a b : Nat) : CountRange := ⟨.included a, .included b⟩

def atLeast (a : Nat) : CountRange := ⟨.included a, .unbounded⟩

def below (b : Nat) : CountRange := ⟨.unbounded, .excluded b⟩

def atMost (b : Nat) : CountRange := ⟨.unbounded, .included b⟩

/-- The range without ends, which a reader has unless it is given another. -/
instance : Inhabited CountRange := ⟨all⟩

/-- Whether `n` does not lie below the range. -/
def reaches (r : CountRange) (n : Nat) : Bool :=
  match r.lower with
  | .unbounded => true
  | .included a => decide (a ≤ n)
  | .excluded a => decide (a < n)

/-- Whether `n` does not lie above the range. -/
def admits (r : CountRange) (n : Nat) : Bool :=
  match r.upper with
  | .unbounded => true
  | .included b => decide (n ≤ b)
  | .excluded b => decide (n < b)

def contains (r : CountRange) (n : Nat) : Bool := r.reaches n && r.admits n

def isCapped (r : CountRange) : Bool :=
  match r.upper with
  | .unbounded => false
  | _ => true

end CountRange
end WireFormat
