import HtmlDoc.Settings.Basic
import HtmlDoc.Toml.Document

/-!
Settings from TOML. They stand in the table `render`, or in an array in its place that gives the
width and then the style. Keys that mean nothing here are passed over, but their numbers must still
be numbers and fit: integers into 128 bits, floating-point numbers into double precision. What follows
in such an array is not looked at.
-/

namespace HtmlDoc

namespace Toml

/-- Whether an integer fits into 128 bits, with a sign or without. -/
def integerFits (n : Int) : Bool := -Int.pow 2 127 ≤ n && n < Int.pow 2 128

/-- Whether a floating-point number is not too large. -/
def FloatValue.fits : FloatValue → Bool
  | .finite _ value => !value.overflows Decimal.binary64
  | _ => true

mutual

/-- Whether the numbers in a value are numbers, and fit. -/
def Value.fits : Value → Bool
  | .integer n => n.any integerFits
  | .float value => value.fits
  | .array _ items => Value.allFit items
  | .table _ entries => Value.entriesFit entries
  | _ => true

def Value.allFit : List Value → Bool
  | [] => true
  | item :: items => item.fits && Value.allFit items

/-- Whether the numbers in the values of a table fit. -/
def Value.entriesFit : List (String × Value) → Bool
  | [] => true
  | (_, value) :: entries => value.fits && Value.entriesFit entries

end

end Toml

namespace Settings

open Toml

def tableKey : String := "render"

def widthKey : String := "indent_width"

def styleKey : String := "indent_style"

/-- A width: an integer of 64 bits without a sign. -/
def widthOf? : Value → Option Nat
  | .integer (some n) => if 0 ≤ n ∧ n < Int.pow 2 64 then some n.toNat else none
  | _ => none

/-- A style: its name, or its name as the only key of a table, with an empty table or array. -/
def styleOf? : Value → Option IndentStyle
  | .string name => IndentStyle.ofName? name
  | .table _ [(name, .table _ [])] => IndentStyle.ofName? name
  | .table _ [(name, .array _ [])] => IndentStyle.ofName? name
  | _ => none

def readEntry (settings : Settings) (entry : String × Value) : Option Settings :=
  if entry.1 = widthKey then (widthOf? entry.2).map fun width => { settings with width }
  else if entry.1 = styleKey then (styleOf? entry.2).map fun style => { settings with style }
  else if entry.2.fits then some settings
  else none

/-- Reads what stands for the table. A moment counts as a table without keys. -/
def readTable (settings : Settings) : Value → Option Settings
  | .table _ entries => entries.foldlM readEntry settings
  | .array _ [] => some settings
  | .array _ [width] => (widthOf? width).map fun width => { settings with width }
  | .array _ (width :: style :: _) => do
    let width ← widthOf? width
    let style ← styleOf? style
    return { settings with width, style }
  | .moment _ => some settings
  | _ => none

def readTop (settings : Settings) (entry : String × Value) : Option Settings :=
  if entry.1 = tableKey then settings.readTable entry.2
  else if entry.2.fits then some settings
  else none

/-- The settings that a text in TOML gives, defaults where it gives none. -/
def decode? (text : String) : Option Settings := do
  let entries ← Toml.parse? text
  entries.foldlM readTop {}

end Settings

end HtmlDoc
