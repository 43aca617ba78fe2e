import HtmlDoc.Toml.Moment
import HtmlDoc.Toml.Quoted
import HtmlDoc.Toml.Value

/-!
Scalars: the values that are one word, and strings. What a word is shows before its digits are looked
at one by one, so that a word can be written like an integer and stand for no number.
-/

namespace HtmlDoc.Toml.Scalar

open Reader

/-- Drops the underscores of a number. On either side of each there must be a character of the
class. -/
def ungroup (beside : Char → Bool) : List Char → Option (List Char)
  | [] => some []
  | '_' :: _ => none
  | c :: '_' :: d :: cs =>
    if beside c && beside d then (ungroup beside (d :: cs)).map (c :: ·) else none
  | c :: cs => (ungroup beside cs).map (c :: ·)

def splitSign : List Char → Bool × List Char
  | '-' :: cs => (true, cs)
  | '+' :: cs => (false, cs)
  | cs => (false, cs)

def isGrouped (c : Char) : Bool := c.isDigit || c == '_'

/-- The digits at the front of a number, of which there is at least one, and what follows them. -/
def splitDigits (cs : List Char) : Option (List Char × List Char) := do
  let digits ← ungroup Char.isDigit (cs.takeWhile isGrouped)
  if digits.isEmpty then none else some (digits, cs.dropWhile isGrouped)

/-- Whether the number starts with a zero that it does not need. -/
def isPadded (digits : List Char) : Bool := digits.head? == some '0' && digits.length != 1

/-- The exponent of a number. A number that has none ends here. -/
def exponent? : List Char → Option Int
  | [] => some 0
  | c :: cs =>
    if c = 'e' ∨ c = 'E' then do
      let (negative, cs) := splitSign cs
      let (digits, rest) ← splitDigits cs
      let n : Int := ofDigits 10 digits
      if rest.isEmpty then some (if negative then -n else n) else none
    else none

/-- The fraction of a number, and what follows it. -/
def fraction? : List Char → Option (List Char × List Char)
  | '.' :: cs => splitDigits cs
  | cs => some ([], cs)

def float? (negative : Bool) (cs : List Char) : Option Value := do
  let (whole, rest) ← splitDigits cs
  let (part, rest) ← fraction? rest
  let exponent ← exponent? rest
  if isPadded whole then none
  else some (.float (.finite negative ⟨ofDigits 10 (whole ++ part), exponent - part.length⟩))

/-- The number that digits in a base stand for. There must be some, and all of that base. -/
def number? (base : Nat) (p : Char → Bool) (digits : List Char) : Option Nat :=
  if digits.isEmpty || !digits.all p then none else some (ofDigits base digits)

/-- An integer in base ten. It shows by digits at the front, with nothing or an underscore after them.
Every underscore must have a digit of some base on either side; the other characters do not matter
here, and if there are any but digits of base ten, the integer is no number. -/
def integer? (negative : Bool) (cs : List Char) : Option Value := do
  let digits ← ungroup isHexDigit cs
  let shown := cs.head?.any Char.isDigit && (cs.dropWhile Char.isDigit).head?.all (· == '_')
  if !shown || isPadded digits then none
  else some (.integer ((number? 10 Char.isDigit digits).map fun n => if negative then -n else n))

/-- Whether `c` tells a floating-point number from an integer. -/
def isFloatMark (c : Char) : Bool := c == '.' || c == 'e' || c == 'E'

def decimal? (cs : List Char) : Option Value :=
  let (negative, cs) := splitSign cs
  if cs.any isFloatMark then float? negative cs else integer? negative cs

/-- An integer in base sixteen, eight or two, which has a mark in front and no sign. The mark alone is
an integer that is no number. -/
def based? : List Char → Option Value
  | '0' :: mark :: cs => do
    let (base, p) ← match mark with
      | 'x' => some (16, isHexDigit)
      | 'o' => some (8, fun c => '0' ≤ c && c ≤ '7')
      | 'b' => some (2, fun c => c == '0' || c == '1')
      | _ => none
    let digits ← ungroup isHexDigit cs
    if digits.all p then some (.integer ((number? base p digits).map Int.ofNat)) else none
  | _ => none

/-- A value that has a name of its own. Only the floating-point ones take a sign. -/
def named? (cs : List Char) : Option Value :=
  if cs = ['t', 'r', 'u', 'e'] then some (.boolean true)
  else if cs = ['f', 'a', 'l', 's', 'e'] then some (.boolean false)
  else
    let (negative, cs) := splitSign cs
    if cs = ['i', 'n', 'f'] then some (.float (.infinite negative))
    else if cs = ['n', 'a', 'n'] then some (.float .nan)
    else none

def ofWord? (cs : List Char) : Option Value :=
  named? cs <|> based? cs <|> decimal? cs <|>
    if Moment.isMoment cs then some (.moment (String.ofList cs)) else none

/-- Whether `c` may stand in a word: it neither separates nor has a meaning of its own. -/
def isWordChar (c : Char) : Bool :=
  !isGap c && !(['\n', '\r', '=', ',', '[', ']', '\x7b', '\x7d', '#'].contains c)

/-- Reads a word. A date and the time after it are one word, though there may be a space between. -/
def word : Reader (List Char) := do
  let cs ← run isWordChar
  if Moment.isDate cs then
    (do char ' '
        let time ← run isWordChar
        check (time.head?.elim false Char.isDigit)
        return cs ++ ' ' :: time) <|> pure cs
  else return cs

def scalar : Reader Value :=
  (Quoted.string >>= fun text => pure (.string text)) <|> (word >>= fun cs => ofOption (ofWord? cs))

end HtmlDoc.Toml.Scalar
