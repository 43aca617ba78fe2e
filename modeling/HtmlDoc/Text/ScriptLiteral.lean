/-!
Text as the body of a quoted script literal. Backslashes and both quotes are escaped, every line
break becomes an escape sequence, and `</` becomes `<\/`, so that the literal cannot end the script
element that holds it.
-/

namespace HtmlDoc.Text

/-- Writes the characters of a text as the body of a script literal. A carriage return and the line
feed after it are one line break. -/
def scriptChars : List Char → List Char
  | [] => []
  | '\\' :: cs => '\\' :: '\\' :: scriptChars cs
  | '<' :: '/' :: cs => '<' :: '\\' :: '/' :: scriptChars cs
  | '\r' :: '\n' :: cs => '\\' :: 'n' :: scriptChars cs
  | '\r' :: cs => '\\' :: 'n' :: scriptChars cs
  | '\n' :: cs => '\\' :: 'n' :: scriptChars cs
  | '\u2028' :: cs => '\\' :: 'u' :: '2' :: '0' :: '2' :: '8' :: scriptChars cs
  | '\u2029' :: cs => '\\' :: 'u' :: '2' :: '0' :: '2' :: '9' :: scriptChars cs
  | '"' :: cs => '\\' :: '"' :: scriptChars cs
  | '\'' :: cs => '\\' :: '\'' :: scriptChars cs
  | c :: cs => c :: scriptChars cs

/-- Writes a text as the body of a script literal. -/
def scriptLiteral (text : String) : String :=
  String.ofList (scriptChars text.toList)

/-- Writes a text that may be absent: where there is none, nothing is written. -/
def scriptLiteral? (text : Option String) : String :=
  text.elim "" scriptLiteral

end HtmlDoc.Text
