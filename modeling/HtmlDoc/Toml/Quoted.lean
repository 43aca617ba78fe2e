import HtmlDoc.Toml.Reader

/-!
Quoted text: strings in double quotes, which have escapes, and in single quotes, which have none.
Both come in two forms, one that ends with its line, and one in tripled quotes that may span lines.
-/

namespace HtmlDoc.Toml.Quoted

open Reader

/-- The character that an escape stands for by name. -/
def namedEscape : Char → Option Char
  | 'b' => some '\x08'
  | 't' => some '\t'
  | 'n' => some '\n'
  | 'f' => some '\x0c'
  | 'r' => some '\r'
  | 'e' => some '\x1b'
  | '"' => some '"'
  | '\\' => some '\\'
  | _ => none

/-- How many hexadecimal digits an escape by number has. -/
def numberedEscape : Char → Option Nat
  | 'x' => some 2
  | 'u' => some 4
  | 'U' => some 8
  | _ => none

/-- The character with a number, unless the number is that of none. -/
def charOfNat (n : Nat) : Option Char :=
  if n.isValidChar then some (Char.ofNat n) else none

def escape : Reader Char := do
  char '\\'
  let c ← one fun _ => true
  match numberedEscape c with
  | some count =>
    let digits ← hexDigits count
    ofOption (charOfNat (ofDigits 16 digits))
  | none => ofOption (namedEscape c)

def basic : Reader String := do
  char '"'
  let cs ← many (escape <|> one fun c => isLineChar c && c != '"' && c != '\\')
  char '"'
  return String.ofList cs

def literal : Reader String := do
  char '\''
  let cs ← run fun c => isLineChar c && c != '\''
  char '\''
  return String.ofList cs

/-- Reads one or two quotes that do not end a string in tripled quotes. -/
def innerQuotes (quote : Char) : Reader (List Char) := do
  let quotes ← run (· == quote)
  check (!quotes.isEmpty && quotes.length < 3)
  return quotes

/-- Reads the quotes that end a string in tripled quotes: three of them, after one or two that still
belong to the string. -/
def closingQuotes (quote : Char) : Reader (List Char) := do
  let quotes ← (chars [quote, quote, quote, quote, quote] *> pure [quote, quote])
    <|> (chars [quote, quote, quote, quote] *> pure [quote])
    <|> (chars [quote, quote, quote] *> pure [])
  return quotes

/-- Reads the end of a line that is escaped, and all white space up to the next text. -/
def lineBreak : Reader (List Char) := do
  char '\\'
  gap
  char '\n'
  let _ ← run fun c => isGap c || c == '\n'
  return []

/-- Reads a string in tripled quotes from its pieces. A line end right after the opening quotes does
not belong to it. -/
def tripled (quote : Char) (piece : Reader (List Char)) : Reader String := do
  chars [quote, quote, quote]
  char '\n' <|> pure ()
  let pieces ← many (innerQuotes quote <|> piece)
  let last ← closingQuotes quote
  return String.ofList (pieces.flatten ++ last)

def single (p : Char → Bool) : Reader (List Char) := do
  let c ← one p
  return [c]

def tripledBasic : Reader String :=
  tripled '"' (lineBreak <|> (escape >>= fun c => pure [c]) <|>
    single fun c => (isLineChar c || c == '\n') && c != '"' && c != '\\')

def tripledLiteral : Reader String :=
  tripled '\'' (single fun c => (isLineChar c || c == '\n') && c != '\'')

def string : Reader String :=
  tripledBasic <|> tripledLiteral <|> basic <|> literal

end HtmlDoc.Toml.Quoted
