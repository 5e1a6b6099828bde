import WireFormat.Error
import WireFormat.Json.Decimal

/-! Reading JSON documents. The first fault in reading order is the one reported. A text that is over before
    what it has begun has a fault of its own. -/

namespace WireFormat.Json

/-- A reading of something at the front of a text, which gives the rest of the text with it. -/
abbrev Parse (α : Type) := List Char → Except Fault (α × List Char)

def isSpace (c : Char) : Bool := c == ' ' || c == '\t' || c == '\n' || c == '\r'

/-- `text` from its first character that is no space. -/
def skipSpace (text : List Char) : List Char := text.dropWhile isSpace

/-- `value`, spelled by the word. -/
def keyword (value : Json) : (word : List Char) → Parse Json
  | [], text => .ok (value, text)
  | _ :: _, [] => .error .unexpectedEnd
  | c :: word, d :: text => if c = d then keyword value word text else .error .malformed

/-! ### Strings -/

/-- What the characters of a string have led to: plain text, an escape, or a code unit of UTF-16 in four
    digits. The first half of a surrogate pair waits for the second. -/
inductive StringState where
  | plain
  | escape
  | unit (high : Option Nat) (value : Nat) (missing : Nat)
  | pairEscape (high : Nat)
  | pairUnit (high : Nat)

def shortEscape? (c : Char) : Option Char :=
  if c = '"' then some '"'
  else if c = '\x5c' then some '\x5c'
  else if c = '/' then some '/'
  else if c = 'b' then some '\x08'
  else if c = 'f' then some '\x0c'
  else if c = 'n' then some '\n'
  else if c = 'r' then some '\r'
  else if c = 't' then some '\t'
  else none

/-- Whether the text has room for four digits, that is four bytes of UTF-8. -/
def hasFourBytes (text : List Char) : Bool := decide (4 ≤ (String.ofList (text.take 4)).utf8ByteSize)

def isHighSurrogate (unit : Nat) : Bool := decide (0xd800 ≤ unit ∧ unit ≤ 0xdbff)

def isLowSurrogate (unit : Nat) : Bool := decide (0xdc00 ≤ unit ∧ unit ≤ 0xdfff)

def pairChar (high low : Nat) : Char := Char.ofNat (0x10000 + (high - 0xd800) * 0x400 + (low - 0xdc00))

/-- What follows a code unit: a character, or the wait for its second half. -/
def closeUnit (high : Option Nat) (unit : Nat) : Except Fault (StringState × List Char) :=
  match high with
  | some first => if isLowSurrogate unit then .ok (.plain, [pairChar first unit]) else .error .malformed
  | none =>
    if isLowSurrogate unit then .error .malformed
    else if isHighSurrogate unit then .ok (.pairEscape unit, [])
    else .ok (.plain, [Char.ofNat unit])

/-- Reads a string from after its opening quote to its closing one. The characters found so far are kept
    with the last one first. -/
def stringBody : StringState → (found : List Char) → Parse String
  | _, _, [] => .error .unexpectedEnd
  | .plain, found, c :: text =>
    if c = '"' then .ok (String.ofList found.reverse, text)
    else if c = '\x5c' then stringBody .escape found text
    else if c.toNat < 0x20 then .error .malformed
    else stringBody .plain (c :: found) text
  | .escape, found, c :: text =>
    match shortEscape? c with
    | some e => stringBody .plain (e :: found) text
    | none =>
      if c ≠ 'u' then .error .malformed
      else if hasFourBytes text then stringBody (.unit none 0 4) found text
      else .error .unexpectedEnd
  | .unit high value missing, found, c :: text =>
    match Hex.digitValue? c with
    | none => .error .malformed
    | some digit =>
      if 1 < missing then stringBody (.unit high (16 * value + digit) (missing - 1)) found text
      else match closeUnit high (16 * value + digit) with
        | .error e => .error e
        | .ok (state, more) => stringBody state (more ++ found) text
  | .pairEscape high, found, c :: text =>
    if c = '\x5c' then stringBody (.pairUnit high) found text else .error .malformed
  | .pairUnit high, found, c :: text =>
    if c ≠ 'u' then .error .malformed
    else if hasFourBytes text then stringBody (.unit (some high) 0 4) found text
    else .error .unexpectedEnd

/-! ### Numbers -/

/-- The digits at the front of a text, and what follows them. -/
def spanDigits (text : List Char) : List Char × List Char := text.span Char.isDigit

def someDigits : Parse (List Char) := fun text =>
  match text with
  | [] => .error .unexpectedEnd
  | c :: _ => if c.isDigit then .ok (spanDigits text) else .error .malformed

/-- The digits before the point: a zero alone, or digits of which the first is not zero. -/
def wholeDigits : Parse (List Char) := fun text => do
  let (whole, rest) ← someDigits text
  match whole with
  | '0' :: _ :: _ => .error .malformed
  | _ => .ok (whole, rest)

/-- The point and the digits after it, if there is a point. -/
def fractionDigits : Parse (Option (List Char))
  | '.' :: text => do
    let (fraction, rest) ← someDigits text
    .ok (some fraction, rest)
  | text => .ok (none, text)

def natOfDigits (ds : List Char) : Nat := ds.foldl (fun n d => 10 * n + (d.toNat - 48)) 0

/-- The sign of a power of ten: whether it is negative. -/
def exponentSign : List Char → Bool × List Char
  | '+' :: text => (false, text)
  | '-' :: text => (true, text)
  | text => (false, text)

def exponentPart : Parse (Option Int) := fun text =>
  match text with
  | [] => .ok (none, [])
  | c :: rest =>
    if c = 'e' ∨ c = 'E' then do
      let (negative, rest) := exponentSign rest
      let (ds, rest) ← someDigits rest
      let n : Int := natOfDigits ds
      .ok (some (if negative then -n else n), rest)
    else .ok (none, text)

/-- A number, whose minus sign has been read if there is one. -/
def numberBody (negative : Bool) : Parse Json := fun text => do
  let (whole, rest) ← wholeDigits text
  let (fraction, rest) ← fractionDigits rest
  let (exponent, rest) ← exponentPart rest
  match (Literal.mk negative whole fraction exponent).value? with
  | some n => .ok (.number n, rest)
  | none => .error .malformed

/-! ### Values -/

/-- Reads the items of an array after the first place for one, up to the closing bracket. Each item takes
    a character at least, so the length of the text bounds their number. -/
def arrayItems (item : Parse Json) : (bound : Nat) → (found : List Json) → Parse Json
  | 0, _, _ => .error .malformed
  | bound + 1, found, text => do
    let (value, rest) ← item text
    match skipSpace rest with
    | [] => .error .unexpectedEnd
    | ']' :: rest => .ok (.array (value :: found).reverse, rest)
    | ',' :: rest =>
      match skipSpace rest with
      | ']' :: _ => .error .malformed
      | _ => arrayItems item bound (value :: found) rest
    | _ => .error .malformed

/-- An array, whose opening bracket has been read. -/
def arrayBody (item : Parse Json) : Parse Json := fun text =>
  match skipSpace text with
  | [] => .error .unexpectedEnd
  | ']' :: rest => .ok (.array [], rest)
  | _ => arrayItems item text.length [] text

/-- A key of an object and the colon after it. -/
def memberKey : Parse String := fun text =>
  match skipSpace text with
  | [] => .error .unexpectedEnd
  | '"' :: rest => do
    let (key, rest) ← stringBody .plain [] rest
    match skipSpace rest with
    | [] => .error .unexpectedEnd
    | ':' :: rest => .ok (key, rest)
    | _ => .error .malformed
  | _ => .error .malformed

/-- Reads the members of an object after the first place for one, up to the closing brace. Of members
    with one key the last counts. -/
def objectMembers (item : Parse Json) : (bound : Nat) → (found : List (String × Json)) → Parse Json
  | 0, _, _ => .error .malformed
  | bound + 1, found, text => do
    let (key, rest) ← memberKey text
    let (value, rest) ← item rest
    let found := bindMember found key value
    match skipSpace rest with
    | [] => .error .unexpectedEnd
    | c :: rest =>
      if c = '\x7d' then .ok (.object found, rest)
      else if c = ',' then objectMembers item bound found rest
      else .error .malformed

/-- An object, whose opening brace has been read. -/
def objectBody (item : Parse Json) : Parse Json := fun text =>
  match skipSpace text with
  | [] => .error .unexpectedEnd
  | c :: rest => if c = '\x7d' then .ok (.object [], rest) else objectMembers item text.length [] text

/-- A value at the front of a text, after spaces. The readings of containers after their opening sign are
    given. -/
def valueWith (array object : Parse Json) : Parse Json := fun text =>
  match skipSpace text with
  | [] => .error .unexpectedEnd
  | c :: rest =>
    if c = 'n' then keyword .null ['u', 'l', 'l'] rest
    else if c = 't' then keyword (.bool true) ['r', 'u', 'e'] rest
    else if c = 'f' then keyword (.bool false) ['a', 'l', 's', 'e'] rest
    else if c = '"' then (stringBody .plain [] rest).map fun (s, rest) => (.string s, rest)
    else if c = '[' then array rest
    else if c = '\x7b' then object rest
    else if c = '-' then numberBody true rest
    else if c.isDigit then numberBody false (c :: rest)
    else .error .malformed

/-- A value with at most `depth` containers open at once. -/
def value : (depth : Nat) → Parse Json
  | 0 => valueWith (fun _ => .error .malformed) (fun _ => .error .malformed)
  | depth + 1 => valueWith (arrayBody (value depth)) (objectBody (value depth))

def maxDepth : Nat := 127

/-- The value of a document: a value, with nothing but spaces around it. -/
def ofChars (text : List Char) : Except Fault Json := do
  let (result, rest) ← value maxDepth text
  match skipSpace rest with
  | [] => .ok result
  | _ => .error .malformed

def parse (text : String) : Except Error Json := (ofChars text.toList).mapError .json

end WireFormat.Json
