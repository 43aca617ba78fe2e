/-!
Binary floating point: what a bit pattern stands for. A finite pattern is `m * 2 ^ q`, and the reals
that round to it form an interval around it. The interval reaches half a step to either side, and
only a quarter of a step (half of the finer step below) under a power of two.
-/

namespace HtmlDoc.Decimal

/-- Layout of a bit pattern: the sign, then `exponentBits`, then `fractionBits`. -/
structure BinaryFormat where
  exponentBits : Nat
  fractionBits : Nat
deriving DecidableEq

def binary32 : BinaryFormat := ⟨8, 23⟩

def binary64 : BinaryFormat := ⟨11, 52⟩

/-- A positive value `m * 2 ^ q` of a format. `narrow` says that the next value below is half a step
away. -/
structure Magnitude where
  m : Nat
  q : Int
  narrow : Bool
deriving DecidableEq

/-- What a bit pattern stands for. -/
inductive Reading where
  | nan
  | infinite (negative : Bool)
  | zero (negative : Bool)
  | finite (negative : Bool) (magnitude : Magnitude)
deriving DecidableEq

/-- Reads a bit pattern. The exponent is biased; the lowest exponent has no hidden bit, and the
highest is kept for infinities and patterns that are not numbers. -/
def BinaryFormat.read (format : BinaryFormat) (bits : Nat) : Reading :=
  let fraction := bits % Nat.pow 2 format.fractionBits
  let exponent := bits / Nat.pow 2 format.fractionBits % Nat.pow 2 format.exponentBits
  let negative := bits / Nat.pow 2 (format.fractionBits + format.exponentBits) % 2 == 1
  let lowest : Int := 2 - Int.pow 2 (format.exponentBits - 1) - format.fractionBits
  if exponent = Nat.pow 2 format.exponentBits - 1 then
    if fraction = 0 then .infinite negative else .nan
  else if exponent = 0 then
    if fraction = 0 then .zero negative else .finite negative ⟨fraction, lowest, false⟩
  else
    .finite negative ⟨Nat.pow 2 format.fractionBits + fraction, lowest + (exponent - 1 : Nat),
      fraction == 0 && exponent != 1⟩

end HtmlDoc.Decimal
