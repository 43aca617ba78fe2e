/-!
Escaping for markup, once. The four characters that mean something in markup become named
references, except an ampersand that already starts a complete reference: text that has been
escaped before comes through unchanged.

A complete reference is `&`, one or more ASCII letters, `;`, or `&#`, one or more ASCII digits, `;`.
Hexadecimal references are not among them.
-/

namespace HtmlDoc.Text

/-- Whether `cs` starts with one or more characters of the class `p` and then a semicolon. -/
def startsWithRun (p : Char → Bool) (cs : List Char) : Bool :=
  !(cs.takeWhile p).isEmpty && (cs.dropWhile p).head? == some ';'

/-- Whether an ampersand followed by `cs` starts a complete reference. -/
def startsReference : List Char → Bool
  | '#' :: cs => startsWithRun Char.isDigit cs
  | cs => startsWithRun Char.isAlpha cs

/-- What is written for `c` when `rest` follows it. -/
def escapeChar (c : Char) (rest : List Char) : List Char :=
  -- An ampersand that starts a reference stays, and so do the references written here.
  if c = '&' then
    if startsReference rest then ['&'] else ['&', 'a', 'm', 'p', ';']
  else if c = '<' then ['&', 'l', 't', ';']
  else if c = '>' then ['&', 'g', 't', ';']
  else if c = '"' then ['&', 'q', 'u', 'o', 't', ';']
  else [c]

/-- Escapes the characters of a text once. -/
def escapeChars : List Char → List Char
  | [] => []
  | c :: cs => escapeChar c cs ++ escapeChars cs

def escapeOnce (text : String) : String :=
  String.ofList (escapeChars text.toList)

end HtmlDoc.Text
