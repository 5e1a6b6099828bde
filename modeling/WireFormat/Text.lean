import WireFormat.Text.CharClass

/-! Operations on texts: cutting at a delimiter and putting the pieces together again, blanks at the ends, and
    the way a message shows a character. -/

namespace WireFormat.Text

/-! ### Pieces

Cutting a text and joining the pieces gives the text back; a list of pieces comes back from its joined form if it
is not empty and no piece holds the delimiter. -/

/-- The pieces of `text` between the occurrences of `delimiter`, empty ones included. A text without
    the delimiter is one piece, and so is the empty text. -/
def pieces (delimiter : Char) : List Char → List (List Char)
  | [] => [[]]
  | c :: text =>
    if c = delimiter then [] :: pieces delimiter text
    else match pieces delimiter text with
      | [] => [[c]]
      | piece :: rest => (c :: piece) :: rest

def split (text : String) (delimiter : Char) : List String :=
  (pieces delimiter text.toList).map String.ofList

/-- The parts in order, with `delimiter` between each two neighbours. -/
def join (parts : List String) (delimiter : Char) : String :=
  String.ofList ([delimiter].intercalate (parts.map String.toList))

/-! ### Blanks -/

/-- The characters that trimming removes: the blank, the tabs, the line ends and the form feed. -/
def isBlank (c : Char) : Bool :=
  c == ' ' || c == '\t' || c == '\n' || c == '\r' || c == '\x0c' || c == '\x0b'

/-- `text` from its first to its last character that is not blank. -/
def trim (text : String) : String :=
  let inner := text.toList.dropWhile isBlank
  String.ofList (inner.reverse.dropWhile isBlank).reverse

/-- `text` followed by as many blanks as it lacks to `length` characters. -/
def padRight (text : String) (length : Nat) : String :=
  String.ofList (text.toList ++ List.replicate (length - text.toList.length) ' ')

/-! ### Characters in messages

A character stands between single quotes, with a short escape for the common controls, and as its code point if
it has no shape of its own. -/

/-- The code point of `c` in braces, in lowercase hexadecimal digits without leading zeros. -/
def codePoint (c : Char) : String :=
  "\\u\x7b" ++ String.ofList (Nat.toDigits 16 c.toNat) ++ "\x7d"

/-- `c` as it stands between single quotes. The double quote needs no escape there. -/
def escaped (c : Char) : String :=
  if c = '\x00' then "\\0"
  else if c = '\t' then "\\t"
  else if c = '\n' then "\\n"
  else if c = '\r' then "\\r"
  else if c = '\x27' then "\\'"
  else if c = '\x5c' then "\\\\"
  else if hidden.contains c then codePoint c
  else c.toString

def quoted (c : Char) : String := "'" ++ escaped c ++ "'"

end WireFormat.Text
