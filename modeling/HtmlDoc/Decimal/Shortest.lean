import HtmlDoc.Decimal.Binary

/-!
The shortest decimal that reads back as a given binary value. A grid is the set of multiples of a
power of ten. The coarsest grid with a point in the interval of reals that round to the value is
taken, on it the point nearest to the value, and the upper one of two that are equally near.
-/

namespace HtmlDoc.Decimal

/-- The decimal `digits * 10 ^ exponent`. -/
structure Numeral where
  digits : Nat
  exponent : Int
deriving DecidableEq

/-- A magnitude and its interval in units of a grid: the value is `value / den`, the ends of the
interval are `low / den` and `high / den`, and `ends` says whether they belong to it. -/
structure Scaled where
  low : Nat
  value : Nat
  high : Nat
  den : Nat
  ends : Bool

/-- Scales a magnitude to the grid of multiples of `10 ^ exponent`. Everything is counted in quarter
steps, so that the interval has whole ends. -/
def Magnitude.scale (v : Magnitude) (exponent : Int) : Scaled :=
  let num := Nat.pow 2 (v.q - 2).toNat * Nat.pow 10 (-exponent).toNat
  { low := (4 * v.m - if v.narrow then 1 else 2) * num
    value := 4 * v.m * num
    high := (4 * v.m + 2) * num
    den := Nat.pow 2 (2 - v.q).toNat * Nat.pow 10 exponent.toNat
    ends := v.m % 2 == 0 }

/-- Whether the grid point `c` rounds to the value. -/
def Scaled.contains (s : Scaled) (c : Nat) : Bool :=
  if s.ends then s.low ≤ c * s.den && c * s.den ≤ s.high
  else s.low < c * s.den && c * s.den < s.high

/-- The point of the grid that stands for the value, if the grid has one in the interval. Of the two
neighbours of the value the nearer is taken, and the upper one in a tie. -/
def Scaled.nearest? (s : Scaled) : Option Nat :=
  let below := s.value / s.den
  let above := below + 1
  match s.contains below, s.contains above with
  | true, true =>
    if above * s.den - s.value ≤ s.value - below * s.den then some above else some below
  | true, false => some below
  | false, true => some above
  | false, false => none

/-- A power of ten that is larger than the value and its interval. -/
def Magnitude.topExponent (v : Magnitude) : Int :=
  -- The fraction is the logarithm of two to base ten, a little rounded up.
  (v.m.log2 + 1 + v.q) * 30103 / 100000 + 2

/-- How many grids below the top one are tried: seventeen digits tell all values of double precision
apart, and the top grid may be three places too coarse. -/
def gridCount : Nat := 21

/-- The shortest decimal that reads back as the value. -/
def Magnitude.shortest (v : Magnitude) : Numeral :=
  let grids := (List.range gridCount).map fun (i : Nat) => v.topExponent - i
  (grids.findSome? fun exponent =>
    (v.scale exponent).nearest?.map fun digits => ⟨digits, exponent⟩).getD ⟨0, 0⟩

/-- Writes a decimal in positions, with no exponent: zeros fill up to the units, and a point stands
only before digits. -/
def Numeral.positional (d : Numeral) : String :=
  let digits := Nat.toDigits 10 d.digits
  let places := (-d.exponent).toNat
  if places = 0 then
    String.ofList (digits ++ List.replicate d.exponent.toNat '0')
  else
    let padded := List.replicate (places + 1 - digits.length) '0' ++ digits
    let units := padded.length - places
    String.ofList (padded.take units ++ '.' :: padded.drop units)

end HtmlDoc.Decimal
