import HtmlDoc.Decimal.Shortest

/-!
Numbers as text. Integers are written in decimal. Floating-point numbers are written with the fewest
digits that read back, in positions: without an exponent, and without a point on whole numbers.
-/

namespace HtmlDoc

open Decimal

inductive Number where
  | integer (value : Int)
  | binary (format : BinaryFormat) (bits : Nat)

namespace Number

def signed (negative : Bool) (text : String) : String :=
  if negative then "-" ++ text else text

/-- The text of a floating-point number. A pattern that is no number has no sign; zero has one. -/
def readingText : Reading → String
  | .nan => "NaN"
  | .infinite negative => signed negative "inf"
  | .zero negative => signed negative "0"
  | .finite negative magnitude => signed negative magnitude.shortest.positional

def text : Number → String
  | .integer value => toString value
  | .binary format bits => readingText (format.read bits)

end Number

end HtmlDoc
