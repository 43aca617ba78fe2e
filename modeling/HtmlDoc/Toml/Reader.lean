/-!
Readers: functions that take a value off the front of a text, or fail. A reader that fails takes
nothing.
-/

namespace HtmlDoc.Toml

/-- Whether `c` is a hexadecimal digit, which makes it a digit in any base. -/
def isHexDigit (c : Char) : Bool := c.isDigit || ('a' ≤ c && c ≤ 'f') || ('A' ≤ c && c ≤ 'F')

/-- A reader of values from the front of a text. -/
abbrev Reader (α : Type) := StateT (List Char) Option α

namespace Reader

def one (p : Char → Bool) : Reader Char := fun
  | [] => none
  | c :: cs => if p c then some (c, cs) else none

def char (c : Char) : Reader Unit := do
  let _ ← one (· == c)

def chars : List Char → Reader Unit
  | [] => pure ()
  | c :: cs => do
    char c
    chars cs

/-- Takes as many characters of a class as there are. -/
def run (p : Char → Bool) : Reader (List Char) := fun cs =>
  some (cs.takeWhile p, cs.dropWhile p)

/-- Looks at the next character and takes nothing. -/
def peek : Reader (Option Char) := fun cs => some (cs.head?, cs)

def check (condition : Bool) : Reader Unit := fun cs =>
  if condition then some ((), cs) else none

def ofOption {α : Type} (value : Option α) : Reader α := fun cs =>
  value.map fun a => (a, cs)

/-- Reads as often as it succeeds, `limit` times at most. -/
def upTo {α : Type} (reader : Reader α) : Nat → Reader (List α)
  | 0 => pure []
  | limit + 1 => fun cs =>
    match reader cs with
    | none => some ([], cs)
    | some (a, rest) => (upTo reader limit rest).map fun result => (a :: result.1, result.2)

/-- Reads as often as it succeeds. A reader that takes a character each time succeeds no oftener
than there are characters. -/
def many {α : Type} (reader : Reader α) : Reader (List α) := fun cs =>
  upTo reader cs.length cs

def hexDigits : Nat → Reader (List Char)
  | 0 => pure []
  | count + 1 => do
    let c ← one isHexDigit
    let cs ← hexDigits count
    return c :: cs

end Reader

/-- The value of a digit, in any base up to sixteen. -/
def digitValue (c : Char) : Nat :=
  if c.isDigit then c.toNat - '0'.toNat
  else if 'a' ≤ c then c.toNat - 'a'.toNat + 10
  else c.toNat - 'A'.toNat + 10

def ofDigits (base : Nat) (digits : List Char) : Nat :=
  digits.foldl (fun n c => n * base + digitValue c) 0

/-- Whether `c` is a control character. Of these only the tab may stand in comments and strings. -/
def isControl (c : Char) : Bool := c.toNat < 0x20 || c.toNat == 0x7F

/-- Whether `c` may stand in comments and strings that end with their line. -/
def isLineChar (c : Char) : Bool := c == '\t' || !isControl c

def isGap (c : Char) : Bool := c == ' ' || c == '\t'

/-- Drops gaps, line ends and comments. A comment ends at a character that may not stand in it. -/
def dropBlank (inComment : Bool) : List Char → List Char
  | [] => []
  | c :: cs =>
    if c = '\n' then dropBlank false cs
    else if inComment then if isLineChar c then dropBlank true cs else c :: cs
    else if isGap c then dropBlank false cs
    else if c = '#' then dropBlank true cs
    else c :: cs

namespace Reader

/-- Skips what may stand between the lines of a document. -/
def blank : Reader Unit := fun cs => some ((), dropBlank false cs)

/-- Skips what may stand between the words of a line. -/
def gap : Reader Unit := do
  let _ ← run isGap

/-- Skips to what ends a line: its end, a comment, or the end of the text. -/
def lineEnd : Reader Unit := do
  gap
  let next ← peek
  check (next.elim true fun c => c == '\n' || c == '#')

end Reader

end HtmlDoc.Toml
