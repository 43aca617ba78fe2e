import HtmlDoc.Layout

/-!
Settings: how far and with what a level is indented, within a greatest width.
-/

namespace HtmlDoc

inductive IndentStyle where
  | spaces
  | tabs
deriving DecidableEq

def IndentStyle.name : IndentStyle → String
  | .spaces => "spaces"
  | .tabs => "tabs"

def IndentStyle.ofName? (name : String) : Option IndentStyle :=
  if name = IndentStyle.spaces.name then some .spaces
  else if name = IndentStyle.tabs.name then some .tabs
  else none

def IndentStyle.char : IndentStyle → Char
  | .spaces => ' '
  | .tabs => '\t'

/-- Where settings come from: a file that was named, or one that was found in a directory, which is
given by the names on the way down to it. -/
inductive Location where
  | named (path : String)
  | found (directory : List String)
deriving DecidableEq

/-- How levels are indented, and where that is laid down. -/
structure Settings where
  width : Nat := 2
  style : IndentStyle := .spaces
  location : Option Location := none
deriving DecidableEq

instance : Inhabited Settings := ⟨{}⟩

/-- Why there are no settings. -/
inductive SettingsError where
  | notFound (path : String)
  | unreadable
  | malformed
  | tooWide
deriving DecidableEq

namespace Settings

def maxWidth : Nat := 8

def unit (settings : Settings) : String :=
  String.ofList (List.replicate settings.width settings.style.char)

/-- The layout that the settings ask for. -/
def layout (settings : Settings) : Layout := ⟨settings.unit⟩

/-- Accepts settings whose width is not too great. -/
def validate (settings : Settings) : Except SettingsError Unit :=
  if settings.width ≤ maxWidth then .ok () else .error .tooWide

end Settings

def SettingsError.message : SettingsError → String
  | .notFound path => "Configuration file not found: " ++ path
  | .unreadable => "I/O error"
  | .malformed => "TOML parse error"
  | .tooWide =>
    "Configuration error: render.indent_width cannot exceed " ++ toString Settings.maxWidth

/-- Settings that take precedence over those of a file. -/
structure Overrides where
  width : Option Nat := none
  style : Option IndentStyle := none
deriving DecidableEq

def Settings.override (settings : Settings) (overrides : Overrides) : Settings :=
  { settings with
    width := overrides.width.getD settings.width
    style := overrides.style.getD settings.style }

end HtmlDoc
