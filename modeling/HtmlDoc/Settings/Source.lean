import HtmlDoc.Settings.Decode

/-!
Where settings are found, in whatever format they are written. A file that is named is the only one
looked at. Otherwise the nearest file with the usual name decides, from the working directory
outwards, and where there is none the defaults hold. A file that decides is never passed over for
another, even if it cannot be read.
-/

namespace HtmlDoc

/-- What can be asked about files: whether there is something at a location, and the text there. -/
structure Files where
  present : Location → Bool
  read : Location → Option String

def Location.fileName : String := "quill.toml"

/-- The path of a location. Directories are separated by slashes, with one in front. -/
def Location.path : Location → String
  | .named path => path
  | .found directory => String.join ((directory ++ [fileName]).map ("/" ++ ·))

/-- A directory and all those around it, from the inside out, each as the names on the way to it. -/
def enclosing (directory : List String) : List (List String) :=
  (List.range (directory.length + 1)).map fun up => directory.take (directory.length - up)

namespace Settings

/-- The nearest location where there is something to be found. -/
def nearest (files : Files) (directory : List String) : Option Location :=
  ((enclosing directory).map Location.found).find? files.present

/-- A format in which settings are written: what a text gives, with defaults where it gives none, or
nothing for a text that is not in the format. -/
structure Format where
  parse? : String → Option Settings

namespace Format

variable (format : Format)

/-- The settings that a text gives, if they are valid. -/
def ofText (text : String) : Except SettingsError Settings :=
  match format.parse? text with
  | none => .error .malformed
  | some settings => settings.validate.map fun _ => settings

def ofFile (files : Files) (location : Location) : Except SettingsError Settings :=
  match files.read location with
  | none => .error .unreadable
  | some text => (format.ofText text).map fun settings => { settings with location := some location }

/-- The settings of the file that decides, or the defaults. -/
def ofSource (files : Files) (directory : List String) :
    Option String → Except SettingsError Settings
  | some path =>
    if files.present (.named path) then format.ofFile files (.named path)
    else .error (.notFound path)
  | none =>
    match nearest files directory with
    | some location => format.ofFile files location
    | none => .ok {}

/-- Loads settings. Overrides are applied to what a file gives, and the outcome must be valid. -/
def load (files : Files) (directory : List String) (path : Option String)
    (overrides : Option Overrides) : Except SettingsError Settings := do
  let settings ← format.ofSource files directory path
  match overrides with
  | none => return settings
  | some overrides =>
    let settings := settings.override overrides
    settings.validate
    return settings

end Format

/-- The format that is in use. -/
def toml : Format := ⟨decode?⟩

/-- The settings that a text in TOML gives, if they are valid. -/
def ofToml (text : String) : Except SettingsError Settings := toml.ofText text

/-- Loads settings that are written in TOML. -/
def load (files : Files) (directory : List String) (path : Option String)
    (overrides : Option Overrides) : Except SettingsError Settings :=
  toml.load files directory path overrides

end Settings

end HtmlDoc
