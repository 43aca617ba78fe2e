import HtmlDoc.Decimal.Shortest

/-!
Decimals that are too large for a binary format: those that would round to more than its largest
finite value. Halfway counts as too large, since the largest finite value is odd.
-/

namespace HtmlDoc.Decimal

/-- The least value that rounds to infinity is `overflowDigits * 2 ^ overflowShift`. -/
def BinaryFormat.overflowDigits (format : BinaryFormat) : Nat :=
  Nat.pow 2 (format.fractionBits + 2) - 1

/-- The exponent that goes with `overflowDigits`. -/
def BinaryFormat.overflowShift (format : BinaryFormat) : Nat :=
  Nat.pow 2 (format.exponentBits - 1) - (format.fractionBits + 2)

def digitCount (n : Nat) : Nat := (Nat.toDigits 10 n).length

/-- Whether a decimal is too large for a format. Decimals that are far off by their number of places
alone are decided without the power of ten. -/
def Numeral.overflows (d : Numeral) (format : BinaryFormat) : Bool :=
  let least := format.overflowDigits * Nat.pow 2 format.overflowShift
  let places := d.exponent + digitCount d.digits
  if d.digits = 0 then false
  else if places > digitCount least then true
  else if places < digitCount least then false
  else least * Nat.pow 10 (-d.exponent).toNat ≤ d.digits * Nat.pow 10 d.exponent.toNat

end HtmlDoc.Decimal
