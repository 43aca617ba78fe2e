import HtmlDoc.Proofs.Settings.Precedence
import Mathlib.Data.List.Induction
import Mathlib.Data.List.Nodup

/-!
Selection: which source settings are loaded from. A path that is given is the only one asked for;
without one the directories are searched from the working directory outwards, each once, up to the
first with something by the usual name. Main statement: what that source comes to, settings or an
error, is what loading comes to, whatever else there is, and settings that are loaded are valid and
say where they come from.
-/

namespace HtmlDoc

theorem singleton_prefix_enclosing (directory : List String) :
    [directory] <+: enclosing directory := by
  rw [enclosing, List.range_succ_eq_map, List.map_cons, Nat.sub_zero, List.take_length]
  exact List.prefix_append [directory] _

theorem enclosing_append_singleton (directory : List String) (name : String) :
    enclosing (directory ++ [name]) = (directory ++ [name]) :: enclosing directory := by
  rw [enclosing, enclosing, List.length_append, List.length_singleton, List.range_succ_eq_map,
    List.map_cons, List.map_map, Nat.sub_zero, List.take_of_length_le (by simp)]
  refine congrArg (_ :: ·) (List.map_congr_left fun up _ => ?_)
  rw [Function.comp_apply, Nat.add_sub_add_right, List.take_append_of_le_length (Nat.sub_le _ _)]

namespace Settings

variable {format : Format} {files : Files} {directory : List String} {path : Option String}
  {location : Location} {overrides : Option Overrides}

/-- Nothing by the usual name is in the directory or in one around it. -/
def NoneFound (files : Files) (directory : List String) : Prop :=
  ∀ around, around <+: directory → files.present (.found around) = false

theorem nearest_eq_none : nearest files directory = none ↔ NoneFound files directory := by
  rw [nearest, List.find?_eq_none, List.forall_mem_map]
  simp only [mem_enclosing, Bool.not_eq_true]
  exact Iff.rfl

/-- The search, step by step: with the directories that it looks in, in their order, and the one in
which it ends because there is something. -/
inductive Search (files : Files) :
    List String → List (List String) → Option (List String) → Prop
  | here {directory : List String} (present : files.present (.found directory) = true) :
    Search files directory [directory] (some directory)
  | outward {directory : List String} {name : String} {visited : List (List String)}
      {found : Option (List String)}
      (absent : files.present (.found (directory ++ [name])) = false)
      (around : Search files directory visited found) :
    Search files (directory ++ [name]) ((directory ++ [name]) :: visited) found
  | nowhere (absent : files.present (.found []) = false) : Search files [] [[]] none

theorem exists_search (files : Files) (directory : List String) :
    ∃ visited found, Search files directory visited found := by
  induction directory using List.reverseRecOn with
  | nil =>
    cases h : files.present (.found []) with
    | true => exact ⟨_, _, .here h⟩
    | false => exact ⟨_, _, .nowhere h⟩
  | append_singleton directory name ih =>
    cases h : files.present (.found (directory ++ [name])) with
    | true => exact ⟨_, _, .here h⟩
    | false =>
      obtain ⟨visited, found, hsearch⟩ := ih
      exact ⟨_, _, .outward h hsearch⟩

namespace Search

variable {visited : List (List String)} {found : Option (List String)}

/-- The directories are looked in from the inside out, none left out. -/
theorem visited_prefix (h : Search files directory visited found) :
    visited <+: enclosing directory := by
  induction h with
  | here => exact singleton_prefix_enclosing _
  | outward _ _ ih =>
    rw [enclosing_append_singleton]
    exact List.cons_prefix_cons.mpr ⟨rfl, ih⟩
  | nowhere => exact singleton_prefix_enclosing []

theorem nodup (h : Search files directory visited found) : visited.Nodup := by
  induction h with
  | here => exact List.nodup_singleton _
  | @outward directory name visited _ _ hsearch ih =>
    refine List.nodup_cons.mpr ⟨fun hmem => ?_, ih⟩
    -- All directories looked in later are further out.
    have hlength := (mem_enclosing.mp (hsearch.visited_prefix.subset hmem)).length_le
    rw [List.length_append, List.length_singleton] at hlength
    omega
  | nowhere => exact List.nodup_singleton _

theorem decides_or_noneFound (h : Search files directory visited found) :
    (∃ around, found = some around ∧ Decides files directory none (.found around)) ∨
      (found = none ∧ NoneFound files directory) := by
  induction h with
  | @here directory present =>
    refine .inl ⟨directory, rfl, .found directory List.prefix_rfl present ?_⟩
    exact fun _ hother _ => hother
  | @outward directory name visited found absent _ ih =>
    -- What encloses the directory is the directory itself or is around the next one.
    have hcases {other : List String} (hother : other <+: directory ++ [name])
        (hpresent : files.present (.found other) = true) : other <+: directory := by
      rcases List.prefix_concat_iff.mp hother with rfl | hfarther
      · rw [absent] at hpresent
        cases hpresent
      · exact hfarther
    rcases ih with ⟨around, hfound, hdecides⟩ | ⟨hfound, hnone⟩
    · cases hdecides with
      | found _ hencloses hpresent hnearest =>
        refine .inl ⟨around, hfound, .found around ?_ hpresent ?_⟩
        · exact hencloses.trans (List.prefix_append _ _)
        · intro other hother hthere
          exact hnearest other (hcases hother hthere) hthere
    · refine .inr ⟨hfound, fun other hother => ?_⟩
      rw [Bool.eq_false_iff]
      intro hthere
      rw [hnone other (hcases hother hthere)] at hthere
      cases hthere
  | nowhere absent =>
    refine .inr ⟨rfl, fun other hother => ?_⟩
    rw [List.prefix_nil.mp hother]
    exact absent

theorem nearest_eq (h : Search files directory visited found) :
    nearest files directory = found.map .found := by
  rcases h.decides_or_noneFound with ⟨around, rfl, hdecides⟩ | ⟨rfl, hnone⟩
  · exact nearest_eq_some.mpr hdecides
  · exact nearest_eq_none.mpr hnone

/-- Only what is in the directories that are looked in can turn the search. -/
theorem of_agree {other : Files} (h : Search files directory visited found)
    (hagree : ∀ around ∈ visited,
      other.present (.found around) = files.present (.found around)) :
    Search other directory visited found := by
  induction h with
  | here present => exact .here ((hagree _ List.mem_cons_self).trans present)
  | outward absent _ ih =>
    obtain ⟨hfirst, hrest⟩ := List.forall_mem_cons.mp hagree
    exact .outward (hfirst.trans absent) (ih hrest)
  | nowhere absent => exact .nowhere ((hagree _ List.mem_cons_self).trans absent)

end Search

/-- The file at a location gives no settings: it cannot be read, its text does not parse, or the
width in it is too great. -/
inductive FailsAt (format : Format) (files : Files) (location : Location) : SettingsError → Prop
  | unreadable (unread : files.read location = none) : FailsAt format files location .unreadable
  | malformed {text : String} (read : files.read location = some text)
      (unparsed : format.parse? text = none) : FailsAt format files location .malformed
  | tooWide {text : String} {parsed : Settings} (read : files.read location = some text)
      (parses : format.parse? text = some parsed) (wide : maxWidth < parsed.width) :
      FailsAt format files location .tooWide

/-- The settings that the file at a location gives: those in its text, with the location noted. -/
inductive GivesAt (format : Format) (files : Files) (location : Location) : Settings → Prop
  | parsed {text : String} {parsed : Settings} (read : files.read location = some text)
      (parses : format.parse? text = some parsed) (valid : parsed.width ≤ maxWidth) :
      GivesAt format files location { parsed with location := some location }

theorem FailsAt.ofFile_eq {error : SettingsError} (h : FailsAt format files location error) :
    format.ofFile files location = .error error := by
  cases h with
  | unreadable unread => simp only [Format.ofFile, unread]
  | malformed read unparsed =>
    simp only [Format.ofFile, read, Format.ofText, unparsed]
    rfl
  | tooWide read parses wide => rw [ofFile_of_parse read parses, if_neg (Nat.not_le.mpr wide)]

theorem GivesAt.ofFile_eq {settings : Settings} (h : GivesAt format files location settings) :
    format.ofFile files location = .ok settings := by
  cases h with
  | parsed read parses valid => rw [ofFile_of_parse read parses, if_pos valid]

theorem failsAt_or_givesAt (format : Format) (files : Files) (location : Location) :
    (∃ error, FailsAt format files location error) ∨
      ∃ settings, GivesAt format files location settings := by
  cases hread : files.read location with
  | none => exact .inl ⟨_, .unreadable hread⟩
  | some text =>
    cases hparse : format.parse? text with
    | none => exact .inl ⟨_, .malformed hread hparse⟩
    | some parsed =>
      rcases Nat.lt_or_ge maxWidth parsed.width with hwide | hvalid
      · exact .inl ⟨_, .tooWide hread hparse hwide⟩
      · exact .inr ⟨_, .parsed hread hparse hvalid⟩

/-- What becomes of settings under overrides, if there are any. -/
def underOverrides (settings : Settings) : Option Overrides → Except SettingsError Settings
  | none => .ok settings
  | some overrides =>
    if (settings.override overrides).width ≤ maxWidth then .ok (settings.override overrides)
    else .error .tooWide

theorem load_eq_underOverrides {settings : Settings}
    (h : format.ofSource files directory path = .ok settings) (overrides : Option Overrides) :
    format.load files directory path overrides = settings.underOverrides overrides := by
  cases overrides with
  | none => rw [load_none, h, underOverrides]
  | some overrides => rw [load_of_ok h, map_validate, underOverrides]

/-- What loading comes to. A path that is given must lead to something. The file that decides, at
that path or in the nearest directory, gives the settings or the error; only where there is no such
file, the defaults hold. -/
inductive Loads (format : Format) (files : Files) (directory : List String)
    (overrides : Option Overrides) : Option String → Except SettingsError Settings → Prop
  | missing {path : String} (absent : files.present (.named path) = false) :
    Loads format files directory overrides (some path) (.error (.notFound path))
  | failed {path : Option String} {location : Location} {error : SettingsError}
      (decides : Decides files directory path location)
      (fails : FailsAt format files location error) :
    Loads format files directory overrides path (.error error)
  | loaded {path : Option String} {location : Location} {settings : Settings}
      (decides : Decides files directory path location)
      (gives : GivesAt format files location settings) :
    Loads format files directory overrides path (settings.underOverrides overrides)
  | defaults (absent : NoneFound files directory) :
    Loads format files directory overrides none (underOverrides {} overrides)

theorem ofSource_of_noneFound (h : NoneFound files directory) :
    format.ofSource files directory none = .ok {} := by
  simp only [Format.ofSource, nearest_eq_none.mpr h]

theorem Loads.load_eq {outcome : Except SettingsError Settings}
    (h : Loads format files directory overrides path outcome) :
    format.load files directory path overrides = outcome := by
  cases h with
  | missing absent =>
    apply load_of_error
    rw [Format.ofSource, absent]
    rfl
  | failed decides fails =>
    exact load_of_error ((ofSource_of_decides decides).trans fails.ofFile_eq) overrides
  | loaded decides gives =>
    exact load_eq_underOverrides ((ofSource_of_decides decides).trans gives.ofFile_eq) overrides
  | defaults absent => exact load_eq_underOverrides (ofSource_of_noneFound absent) overrides

theorem exists_loads (format : Format) (files : Files) (directory : List String)
    (overrides : Option Overrides) (path : Option String) :
    ∃ outcome, Loads format files directory overrides path outcome := by
  have hdecided {location : Location} (hdecides : Decides files directory path location) :
      ∃ outcome, Loads format files directory overrides path outcome := by
    rcases failsAt_or_givesAt format files location with ⟨error, hfails⟩ | ⟨settings, hgives⟩
    · exact ⟨_, .failed hdecides hfails⟩
    · exact ⟨_, .loaded hdecides hgives⟩
  cases path with
  | some named =>
    cases hpresent : files.present (.named named) with
    | true => exact hdecided (.named named hpresent)
    | false => exact ⟨_, .missing hpresent⟩
  | none =>
    obtain ⟨visited, found, hsearch⟩ := exists_search files directory
    rcases hsearch.decides_or_noneFound with ⟨around, -, hdecides⟩ | ⟨-, hnone⟩
    · exact hdecided hdecides
    · exact ⟨_, .defaults hnone⟩

theorem load_eq_iff_loads {outcome : Except SettingsError Settings} :
    format.load files directory path overrides = outcome ↔
      Loads format files directory overrides path outcome := by
  constructor
  · rintro rfl
    obtain ⟨outcome, hloads⟩ := exists_loads format files directory overrides path
    rw [hloads.load_eq]
    exact hloads
  · exact Loads.load_eq

theorem underOverrides_ne_notFound (settings : Settings) (missing : String) :
    settings.underOverrides overrides ≠ .error (.notFound missing) := by
  unfold underOverrides
  split
  · exact nofun
  · split <;> exact nofun

theorem load_eq_notFound_iff (missing : String) :
    format.load files directory path overrides = .error (.notFound missing) ↔
      path = some missing ∧ files.present (.named missing) = false := by
  constructor
  · intro hload
    obtain ⟨outcome, hloads⟩ := exists_loads format files directory overrides path
    rw [hloads.load_eq] at hload
    cases hloads with
    | missing absent =>
      cases hload
      exact ⟨rfl, absent⟩
    | failed _ fails => cases fails <;> cases hload
    | loaded => exact absurd hload (underOverrides_ne_notFound _ missing)
    | defaults => exact absurd hload (underOverrides_ne_notFound _ missing)
  · rintro ⟨rfl, habsent⟩
    exact Loads.load_eq (.missing habsent)

theorem load_congr {other : Files} {elsewhere : List String}
    (h : format.ofSource other elsewhere path = format.ofSource files directory path) :
    format.load other elsewhere path overrides = format.load files directory path overrides := by
  rw [Format.load, Format.load, h]

theorem ofFile_congr {other : Files} (h : other.read location = files.read location) :
    format.ofFile other location = format.ofFile files location := by
  rw [Format.ofFile, Format.ofFile, h]

theorem ofSource_named_congr {other : Files} {elsewhere : List String} {named : String}
    (hpresent : other.present (.named named) = files.present (.named named))
    (hread : other.read (.named named) = files.read (.named named)) :
    format.ofSource other elsewhere (some named) =
      format.ofSource files directory (some named) := by
  rw [Format.ofSource, Format.ofSource, hpresent, ofFile_congr hread]

theorem Search.ofSource_congr {other : Files} {visited : List (List String)}
    {found : Option (List String)} (h : Search files directory visited found)
    (hpresent : ∀ around ∈ visited,
      other.present (.found around) = files.present (.found around))
    (hread : ∀ around, found = some around →
      other.read (.found around) = files.read (.found around)) :
    format.ofSource other directory none = format.ofSource files directory none := by
  have hother := h.of_agree hpresent
  rw [Format.ofSource, Format.ofSource, h.nearest_eq, hother.nearest_eq]
  cases found with
  | none => rfl
  | some around => exact ofFile_congr (hread around rfl)

theorem GivesAt.location_eq {settings : Settings} (h : GivesAt format files location settings) :
    settings.location = some location := by
  cases h
  rfl

theorem GivesAt.width_le {settings : Settings} (h : GivesAt format files location settings) :
    settings.width ≤ maxWidth := by
  cases h with
  | parsed _ _ valid => exact valid

theorem underOverrides_eq_ok {base settings : Settings} (hbase : base.width ≤ maxWidth)
    (h : base.underOverrides overrides = .ok settings) :
    settings.validate = .ok () ∧ settings.location = base.location := by
  cases overrides with
  | none =>
    cases h
    exact ⟨if_pos hbase, rfl⟩
  | some overrides =>
    rw [underOverrides] at h
    split at h
    · rename_i hwidth
      cases h
      exact ⟨if_pos hwidth, rfl⟩
    · cases h

theorem NoneFound.not_decides (h : NoneFound files directory) :
    ¬ Decides files directory none location := by
  rintro (_ | ⟨around, hencloses, hpresent, -⟩)
  rw [h around hencloses] at hpresent
  cases hpresent

theorem not_noneFound_of_decides (h : Decides files directory path location) :
    ¬ (path = none ∧ NoneFound files directory) := by
  rintro ⟨rfl, hnone⟩
  exact hnone.not_decides h

theorem location_of_load {settings : Settings}
    (h : format.load files directory path overrides = .ok settings) :
    settings.validate = .ok () ∧
    (∀ location, settings.location = some location ↔ Decides files directory path location) ∧
    (settings.location = none ↔ path = none ∧ NoneFound files directory) := by
  obtain ⟨outcome, hloads⟩ := exists_loads format files directory overrides path
  rw [hloads.load_eq] at h
  cases hloads with
  | missing => cases h
  | failed => cases h
  | loaded decides gives =>
    obtain ⟨hvalid, hlocation⟩ := underOverrides_eq_ok gives.width_le h
    rw [gives.location_eq] at hlocation
    rw [hlocation]
    refine ⟨hvalid, fun location => ?_, iff_of_false nofun (not_noneFound_of_decides decides)⟩
    rw [Option.some.injEq]
    constructor
    · rintro rfl
      exact decides
    · exact decides.unique
  | defaults absent =>
    obtain ⟨hvalid, hlocation⟩ := underOverrides_eq_ok (by decide) h
    rw [hlocation]
    refine ⟨hvalid, fun location => iff_of_false nofun absent.not_decides, ?_⟩
    exact iff_of_true rfl ⟨rfl, absent⟩

theorem ofSource_eq_defaults_iff :
    format.ofSource files directory path = .ok {} ↔ path = none ∧ NoneFound files directory := by
  constructor
  · intro hsource
    have hload : format.load files directory path none = .ok {} := load_none.trans hsource
    exact (location_of_load hload).2.2.mp rfl
  · rintro ⟨rfl, hnone⟩
    exact ofSource_of_noneFound hnone

/-- Which source counts, for any files, working directory, path and overrides, in whatever format the
files are written. The outcome is that of the rules of `Loads` and no other. Nothing being found is
reported exactly for a path that is given and leads to nothing, and no other location is asked for
where a path is given. Without one the search ends after looking at most once in each directory
around, from the inside out; where it ends is what decides, and nothing but what it has looked at
makes a difference. The defaults are taken exactly where it finds nothing. All settings that are
loaded are valid, and their location is the one that decides, or none for the defaults. -/
theorem load_selects (format : Format) (files : Files) (directory : List String)
    (path : Option String) (overrides : Option Overrides) :
    (∀ outcome, format.load files directory path overrides = outcome ↔
      Loads format files directory overrides path outcome) ∧
    (∀ missing, format.load files directory path overrides = .error (.notFound missing) ↔
      path = some missing ∧ files.present (.named missing) = false) ∧
    (∀ named, path = some named → ∀ (other : Files) (elsewhere : List String),
      other.present (.named named) = files.present (.named named) →
      other.read (.named named) = files.read (.named named) →
      format.load other elsewhere path overrides = format.load files directory path overrides) ∧
    (path = none → ∃ visited found, Search files directory visited found ∧ visited.Nodup ∧
      visited <+: enclosing directory ∧
      (∀ location, Decides files directory path location ↔
        found.map Location.found = some location) ∧
      ∀ other : Files,
        (∀ around ∈ visited, other.present (.found around) = files.present (.found around)) →
        (∀ around, found = some around →
          other.read (.found around) = files.read (.found around)) →
        format.load other directory path overrides = format.load files directory path overrides) ∧
    (format.ofSource files directory path = .ok {} ↔ path = none ∧ NoneFound files directory) ∧
    ∀ settings, format.load files directory path overrides = .ok settings →
      settings.validate = .ok () ∧
      (∀ location, settings.location = some location ↔ Decides files directory path location) ∧
      (settings.location = none ↔ path = none ∧ NoneFound files directory) := by
  refine ⟨fun outcome => load_eq_iff_loads, load_eq_notFound_iff, ?named, ?searched,
    ofSource_eq_defaults_iff, fun settings => location_of_load⟩
  case named =>
    rintro named rfl other elsewhere hpresent hread
    exact load_congr (ofSource_named_congr hpresent hread)
  case searched =>
    rintro rfl
    obtain ⟨visited, found, hsearch⟩ := exists_search files directory
    refine ⟨visited, found, hsearch, hsearch.nodup, hsearch.visited_prefix, fun location => ?_, ?_⟩
    · rw [← nearest_eq_some, hsearch.nearest_eq]
    · intro other hpresent hread
      exact load_congr (hsearch.ofSource_congr hpresent hread)

/-- Two entries by the usual name, of which the nearer one is a directory and has no text. The
search does not go on behind it, though from further out it finds the file; and with a path that
leads to nothing, here the empty one, neither of them is looked at. -/
theorem load_selects_nearest :
    let tree : FileTree := .directory [("docs", .directory [(Location.fileName, .empty)]),
      (Location.fileName, .file "".toUTF8)]
    load (tree.files ["docs"]) ["docs"] none (some ⟨some 4, none⟩) = .error .unreadable ∧
    load (tree.files ["docs"]) ["docs"] (some "") none = .error (.notFound "") ∧
    ∃ settings, load (tree.files []) [] none (some ⟨some 8, some .tabs⟩) = .ok settings ∧
      settings.validate = .ok () ∧ settings.location = some (.found []) := by
  intro tree
  refine ⟨?unreadable, ?missing, ⟨8, .tabs, some (.found [])⟩, ?loaded⟩
  case unreadable =>
    have hdecides : Decides (tree.files ["docs"]) ["docs"] none (.found ["docs"]) :=
      nearest_eq_some.mp (by decide +kernel)
    have hfails : FailsAt toml (tree.files ["docs"]) (.found ["docs"]) .unreadable :=
      .unreadable (by decide +kernel)
    exact ((load_selects toml _ _ _ _).1 _).mpr (.failed hdecides hfails)
  case missing => exact ((load_selects toml _ _ _ _).2.1 _).mpr ⟨rfl, by decide +kernel⟩
  case loaded =>
    have hload : load (tree.files []) [] none (some ⟨some 8, some .tabs⟩) =
        .ok ⟨8, .tabs, some (.found [])⟩ := by
      decide +kernel
    obtain ⟨hvalid, hlocation, -⟩ := (load_selects toml _ _ _ _).2.2.2.2.2 _ hload
    have hdecides : Decides (tree.files []) [] none (.found []) :=
      nearest_eq_some.mp (by decide +kernel)
    exact ⟨hload, hvalid, (hlocation _).mpr hdecides⟩

end Settings

end HtmlDoc
