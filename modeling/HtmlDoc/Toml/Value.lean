import HtmlDoc.Decimal.Overflow

/-!
Values of TOML. A table remembers how it was defined, because that decides what may be added to it
later: a table with a header of its own is complete but for its subtables, an inline table is
complete altogether.
-/

namespace HtmlDoc.Toml

/-- How a table came to be. -/
inductive TableKind where
  /-- By a header of its own, or as the document. -/
  | headed
  /-- As a parent of a table with a header. -/
  | implied
  /-- By the dots of a key, or implied before and extended so since. -/
  | dotted
  /-- In braces. -/
  | inline
deriving DecidableEq

/-- A floating-point number as it is written. -/
inductive FloatValue where
  | nan
  | infinite (negative : Bool)
  | finite (negative : Bool) (value : Decimal.Numeral)

/-- A value. A word that is written like an integer is one, though its digits may stand for no
number. `listed` tells an array of tables that have headers from an array in brackets. -/
inductive Value where
  | string (text : String)
  | integer (value : Option Int)
  | float (value : FloatValue)
  | boolean (value : Bool)
  | moment (text : String)
  | array (listed : Bool) (items : List Value)
  | table (kind : TableKind) (entries : List (String × Value))

abbrev Entries := List (String × Value)

def Entries.replace (key : String) (value : Value) (entries : Entries) : Entries :=
  entries.map fun entry => if entry.1 = key then (key, value) else entry

/-- Adds a key with its value. The key must be new. -/
def Entries.add (key : String) (value : Value) (entries : Entries) : Option Entries :=
  if (entries.lookup key).isSome then none else some (entries ++ [(key, value)])

/-- Changes the entries of the table that is the last of a list of values. -/
def Value.changeLast (change : Entries → Option Entries) : List Value → Option (List Value)
  | [] => none
  | [.table kind entries] => (change entries).map fun entries => [.table kind entries]
  | [_] => none
  | item :: items => (changeLast change items).map (item :: ·)

/-- Adds a value under a dotted key. Tables on the way are made where they are missing. Those that
are there must have been left open: implied or dotted, or the last of a listed array. The implied ones
are dotted from then on. The table that takes the value must be the one that the key starts from, or
dotted; `takes` says that it is. -/
def Entries.assign (takes : Bool) (value : Value) : List String → Entries → Option Entries
  | [], _ => none
  | [key], entries => if takes then entries.add key value else none
  | key :: path, entries =>
    match entries.lookup key with
    | none =>
      (assign true value path []).map fun inner => entries ++ [(key, .table .dotted inner)]
    | some (.table kind inner) =>
      if kind = .implied ∨ kind = .dotted then
        (assign true value path inner).map fun inner => entries.replace key (.table .dotted inner)
      else none
    | some (.array true items) =>
      (Value.changeLast (assign false value path) items).map fun items =>
        entries.replace key (.array true items)
    | some _ => none

/-- Adds values under dotted keys one after the other. -/
def Entries.assignAll (entries : Entries) : List (List String × Value) → Option Entries
  | [] => some entries
  | pair :: pairs => do
    let entries ← entries.assign true pair.2 pair.1
    entries.assignAll pairs

/-- Defines the table of a header. `fill` gives it its entries, from those of subtables that were
there before it. A header in double brackets adds a table to a listed array; one in single brackets
defines a table that is new or only implied. Parents may be any tables but inline ones. -/
def Entries.define (listed : Bool) (fill : Entries → Option Entries) :
    List String → Entries → Option Entries
  | [], _ => none
  | [key], entries =>
    match listed, entries.lookup key with
    | true, none => do
      let inner ← fill []
      return entries ++ [(key, .array true [.table .headed inner])]
    | true, some (.array true items) => do
      let inner ← fill []
      return entries.replace key (.array true (items ++ [.table .headed inner]))
    | false, none => do
      let inner ← fill []
      return entries ++ [(key, .table .headed inner)]
    | false, some (.table .implied inner) => do
      let inner ← fill inner
      return entries.replace key (.table .headed inner)
    | _, _ => none
  | key :: path, entries =>
    match entries.lookup key with
    | none =>
      (define listed fill path []).map fun inner => entries ++ [(key, .table .implied inner)]
    | some (.table kind inner) =>
      if kind = .inline then none
      else (define listed fill path inner).map fun inner => entries.replace key (.table kind inner)
    | some (.array true items) =>
      (Value.changeLast (define listed fill path) items).map fun items =>
        entries.replace key (.array true items)
    | some _ => none

end HtmlDoc.Toml
