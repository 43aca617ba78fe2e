/-!
Names: which texts can be tags and attribute keys, and the tables of tags and keys that are treated
apart. Every recogniser looks at the whole text; all but `isAccessorName` know ASCII only.
-/

namespace HtmlDoc.Name

/-- Whether `cs` is one or more characters of the class `letter` and then at most one digit. -/
def isLettersThenDigit (letter : Char → Bool) (cs : List Char) : Bool :=
  !(cs.takeWhile letter).isEmpty &&
    match cs.dropWhile letter with
    | [] => true
    | [c] => c.isDigit
    | _ => false

/-- Whether `name` can be called as a tag: lowercase letters, and at most one digit at the end. -/
def isTagName (name : String) : Bool :=
  isLettersThenDigit Char.isLower name.toList

/-- The letters of accessor names, compared without regard to case. The long s and the kelvin sign
are case variants of `s` and `k`. -/
def isAccessorLetter (c : Char) : Bool :=
  c.isAlpha || c == '\u017F' || c == '\u212A'

/-- Whether `name` can be used to get and set an attribute: letters of either case, and at most one
digit at the end. -/
def isAccessorName (name : String) : Bool :=
  isLettersThenDigit isAccessorLetter name.toList

/-- Whether `cs` goes on a name of segments joined by single hyphens. `started` says whether the
segment being read has a character already. -/
def isSegments (started : Bool) : List Char → Bool
  | [] => started
  | c :: cs => if c = '-' then started && isSegments false cs else c.isAlphanum && isSegments true cs

/-- Whether `cs` can be written as the name of an element. -/
def isElementChars : List Char → Bool
  | [] => false
  | c :: cs => c.isAlpha && isSegments true cs

/-- Whether `tag` can be written as the name of an element: segments of letters and digits joined by
single hyphens, with a letter in front. -/
def isElementName (tag : String) : Bool :=
  isElementChars tag.toList

/-- What an attribute key may start with. -/
def isKeyStart (c : Char) : Bool := c.isAlpha || c == '_' || c == ':'

def isKeyPart (c : Char) : Bool := c.isAlphanum || c == '-' || c == '_' || c == ':' || c == '.'

/-- Whether `cs` can be written as the key of an attribute. -/
def isKeyChars : List Char → Bool
  | [] => false
  | c :: cs => isKeyStart c && cs.all isKeyPart

/-- Whether `key` can be written as the key of an attribute. -/
def isKey (key : String) : Bool :=
  isKeyChars key.toList

/-- Lowercases a character of a name. The kelvin sign is an uppercase `k`; the long s is lowercase
already. -/
def lowerChar (c : Char) : Char :=
  if c = '\u212A' then 'k' else c.toLower

def lower (name : String) : String :=
  String.ofList (name.toList.map lowerChar)

/-- Tags whose elements get no closing tag unless one is forced. -/
def voidTags : List String :=
  ["area", "base", "br", "col", "command", "embed", "hr", "img", "input", "link", "meta", "param",
    "source"]

/-- Tags whose elements run on in the line. -/
def inlineTags : List String :=
  ["a", "abbr", "b", "button", "em", "i", "input", "img", "label", "li", "option", "span",
    "strong", "title", "textarea", "u"]

/-- Keys whose values are quoted even when they are blank. -/
def alwaysQuotedKeys : List String := ["value", "alt"]

def isVoid (tag : String) : Bool := voidTags.contains tag

def isInline (tag : String) : Bool := inlineTags.contains tag

/-- Whether a blank value under this key is still quoted. -/
def isAlwaysQuoted (key : String) : Bool := alwaysQuotedKeys.contains key

end HtmlDoc.Name
