import HtmlDoc.Toml.Scalar

/-!
Documents of TOML 1.1: lines that bind keys, and headers that say in which table. Arrays and inline
tables may span lines, though a key in them may not. They nest to a fixed depth, and dotted keys have
a greatest length.
-/

namespace HtmlDoc.Toml

open Reader

/-- How deep arrays and inline tables may be nested. -/
def maxNesting : Nat := 80

def maxKeyParts : Nat := 80

def isBareKeyChar (c : Char) : Bool := c.isAlphanum || c == '-' || c == '_'

def keyPart : Reader String :=
  Quoted.basic <|> Quoted.literal <|> do
    let cs ← run isBareKeyChar
    check (!cs.isEmpty)
    return String.ofList cs

/-- Reads a key, whose parts are separated by dots. -/
def key : Reader (List String) := do
  gap
  let first ← keyPart
  gap
  let others ← many do
    char '.'
    gap
    let part ← keyPart
    gap
    return part
  check (others.length < maxKeyParts)
  return first :: others

/-- Reads items separated by commas up to a closing mark. There may be a comma after the last. -/
def listed {α : Type} (item : Reader α) (closing : Char) : Reader (List α) := do
  blank
  let items ← many do
    let a ← item
    blank
    (do char ','
        blank) <|> (peek >>= fun next => check (next == some closing))
    return a
  char closing
  return items

/-- Reads a key with its value. The sign between them may have space on either side. -/
def binding (space : Reader Unit) (value : Reader Value) : Reader (List String × Value) := do
  let key ← key
  space
  char '='
  space
  let value ← value
  return (key, value)

def value : Nat → Reader Value
  | 0 => Scalar.scalar
  | depth + 1 =>
    Scalar.scalar <|>
      (do char '['
          let items ← listed (value depth) ']'
          return .array false items) <|>
      (do char '\x7b'
          let pairs ← listed (binding blank (value depth)) '\x7d'
          let entries ← ofOption (Entries.assignAll [] pairs)
          return .table .inline entries)

/-- Reads the lines that bind keys, up to the next header. -/
def bindings : Reader (List (List String × Value)) :=
  many do
    blank
    let pair ← binding gap (value maxNesting)
    lineEnd
    return pair

/-- A header and the lines under it. -/
structure Section where
  listed : Bool
  path : List String
  pairs : List (List String × Value)

def header : Reader (Bool × List String) :=
  (do chars ['[', '[']
      let path ← key
      chars [']', ']']
      return (true, path)) <|>
    (do char '['
        let path ← key
        char ']'
        return (false, path))

def Section.read : Reader Section := do
  blank
  let (listed, path) ← header
  lineEnd
  let pairs ← bindings
  return ⟨listed, path, pairs⟩

/-- Reads a document: lines at the top, then sections. -/
def document : Reader (List (List String × Value) × List Section) := do
  let pairs ← bindings
  let sections ← many Section.read
  blank
  return (pairs, sections)

/-- Adds sections to the entries of a document one after the other. -/
def Entries.defineAll (entries : Entries) : List Section → Option Entries
  | [] => some entries
  | part :: parts => do
    let entries ← entries.define part.listed (fun inner => inner.assignAll part.pairs) part.path
    entries.defineAll parts

def dropMark : List Char → List Char
  | '\uFEFF' :: cs => cs
  | cs => cs

/-- The text with a line feed alone at the end of each line. -/
def lineFeeds : List Char → List Char
  | '\r' :: '\n' :: cs => '\n' :: lineFeeds cs
  | c :: cs => c :: lineFeeds cs
  | [] => []

/-- The entries of a document, if the text is one. -/
def parse? (text : String) : Option Entries :=
  match document (lineFeeds (dropMark text.toList)) with
  | some ((pairs, sections), []) => do
    let entries ← Entries.assignAll [] pairs
    entries.defineAll sections
  | _ => none

end HtmlDoc.Toml
