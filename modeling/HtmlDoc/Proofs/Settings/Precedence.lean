import HtmlDoc.Settings.FileTree

/-!
Precedence: what becomes of the values of a file that decides, under overrides, in whatever format the
file is written. Main statement: each value that is overridden gives way, and the outcome must be
valid; but a file whose own width is too great is refused before that, so no override makes up for it.
-/

namespace HtmlDoc

theorem mem_enclosing {around directory : List String} :
    around ∈ enclosing directory ↔ around <+: directory := by
  rw [enclosing, List.mem_map]
  constructor
  · rintro ⟨up, -, rfl⟩
    exact List.take_prefix _ directory
  · intro hprefix
    have hlength : around.length ≤ directory.length := hprefix.length_le
    refine ⟨directory.length - around.length, List.mem_range.mpr (by omega), ?_⟩
    rw [Nat.sub_sub_self hlength]
    exact (List.prefix_iff_eq_take.mp hprefix).symm

/-- The directories are listed from the inside out. -/
theorem pairwise_enclosing (directory : List String) :
    (enclosing directory).Pairwise fun inner outer => outer <+: inner := by
  rw [enclosing, List.pairwise_map]
  apply List.pairwise_lt_range.imp
  intro fewer more hlt
  rw [List.prefix_take_iff, List.length_take]
  exact ⟨List.take_prefix _ directory, by omega⟩

namespace Settings

variable {format : Format} {files : Files} {directory : List String} {path : Option String}
  {location : Location}

/-- Which location decides. A path that is given does, if there is something there. Without one it is
the usual name in a directory around, such that all others with something by that name are around
that one in turn. -/
inductive Decides (files : Files) (directory : List String) : Option String → Location → Prop
  | named (path : String) (present : files.present (.named path) = true) :
    Decides files directory (some path) (.named path)
  | found (around : List String) (encloses : around <+: directory)
      (present : files.present (.found around) = true)
      (nearest : ∀ other, other <+: directory → files.present (.found other) = true →
        other <+: around) :
    Decides files directory none (.found around)

theorem decides_of_nearest (h : nearest files directory = some location) :
    Decides files directory none location := by
  rw [nearest, List.find?_map, Option.map_eq_some_iff] at h
  obtain ⟨around, hfind, rfl⟩ := h
  obtain ⟨hpresent, inner, outer, hsplit, habsent⟩ := List.find?_eq_some_iff_append.mp hfind
  have hpairwise := pairwise_enclosing directory
  rw [hsplit, List.pairwise_append, List.pairwise_cons] at hpairwise
  have haround : around ∈ enclosing directory := by
    rw [hsplit]
    exact List.mem_append_right inner List.mem_cons_self
  refine .found around (mem_enclosing.mp haround) hpresent ?_
  intro other hother hthere
  have hmem : other ∈ inner ++ around :: outer := hsplit ▸ mem_enclosing.mpr hother
  rcases List.mem_append.mp hmem with hinner | hrest
  · have habs := habsent other hinner
    rw [Function.comp_apply, hthere] at habs
    exact absurd habs (by decide)
  · rcases List.mem_cons.mp hrest with rfl | houter
    · exact List.prefix_rfl
    · exact hpairwise.2.1.1 other houter

theorem Decides.unique {other : Location} (h : Decides files directory path location)
    (h' : Decides files directory path other) : location = other := by
  cases h with
  | named path hpresent =>
    cases h' with
    | named _ hpresent' => rfl
  | found around hencloses hpresent hnearest =>
    cases h' with
    | found around' hencloses' hpresent' hnearest' =>
      -- Each is around the other, so they are equally far out.
      have hout : around <+: around' := hnearest' around hencloses hpresent
      have hin : around' <+: around := hnearest around' hencloses' hpresent'
      rw [hout.eq_of_length_le hin.length_le]

theorem nearest_eq_some :
    nearest files directory = some location ↔ Decides files directory none location := by
  constructor
  · exact decides_of_nearest
  · intro hdecides
    have hsome : (nearest files directory).isSome = true := by
      cases hdecides with
      | found around hencloses hpresent hnearest =>
        have hmem : Location.found around ∈ (enclosing directory).map .found :=
          List.mem_map_of_mem (mem_enclosing.mpr hencloses)
        rw [nearest, List.find?_isSome]
        exact ⟨.found around, hmem, hpresent⟩
    obtain ⟨nearer, hnearer⟩ := Option.isSome_iff_exists.mp hsome
    rw [hnearer, (decides_of_nearest hnearer).unique hdecides]

theorem ofSource_of_decides (h : Decides files directory path location) :
    format.ofSource files directory path = format.ofFile files location := by
  cases h with
  | named path hpresent => rw [Format.ofSource, if_pos hpresent]
  | found around hencloses hpresent hfarther =>
    have hnearest := nearest_eq_some.mpr (.found around hencloses hpresent hfarther)
    simp only [Format.ofSource, hnearest]

theorem map_validate (settings : Settings) :
    (settings.validate.map fun _ => settings) =
      if settings.width ≤ maxWidth then .ok settings else .error .tooWide := by
  rw [validate]
  split <;> rfl

theorem ofFile_of_parse {text : String} {parsed : Settings} (hread : files.read location = some text)
    (hparsed : format.parse? text = some parsed) :
    format.ofFile files location =
      if parsed.width ≤ maxWidth then .ok { parsed with location := some location }
      else .error .tooWide := by
  simp only [Format.ofFile, hread, Format.ofText, hparsed, map_validate]
  split <;> rfl

theorem load_none :
    format.load files directory path none = format.ofSource files directory path := by
  rw [Format.load]
  cases format.ofSource files directory path <;> rfl

theorem load_of_error {error : SettingsError}
    (h : format.ofSource files directory path = .error error) (overrides : Option Overrides) :
    format.load files directory path overrides = .error error := by
  rw [Format.load, h]
  rfl

theorem load_of_ok {settings : Settings} (h : format.ofSource files directory path = .ok settings)
    (overrides : Overrides) :
    format.load files directory path (some overrides) =
      (settings.override overrides).validate.map fun _ => settings.override overrides := by
  rw [Format.load, h]
  show (validate _ >>= fun _ => pure _) = _
  cases (settings.override overrides).validate <;> rfl

/-- What the values of a file come to under overrides: a value that is overridden gives way, and the
width that results must not be too great. -/
def merge (parsed : Settings) (overrides : Overrides) (location : Location) :
    Except SettingsError Settings :=
  if overrides.width.getD parsed.width ≤ maxWidth then
    .ok ⟨overrides.width.getD parsed.width, overrides.style.getD parsed.style, some location⟩
  else .error .tooWide

theorem load_of_valid {parsed : Settings} (hvalid : parsed.width ≤ maxWidth)
    (h : format.ofSource files directory path = .ok { parsed with location := some location })
    (overrides : Option Overrides) :
    format.load files directory path overrides = parsed.merge (overrides.getD {}) location := by
  cases overrides with
  | none =>
    rw [load_none, h]
    exact (if_pos hvalid).symm
  | some overrides =>
    rw [load_of_ok h, map_validate]
    rfl

/-- Loading from the file that decides, whatever its format. Where the width in the file is not too
great, the outcome is that of merging, for all overrides. Where it is, no override is looked at; so
loading comes to what merging comes to only if the merged width is too great as well. -/
theorem load_eq_merge_iff {text : String} {parsed : Settings}
    (hdecides : Decides files directory path location) (hread : files.read location = some text)
    (hparsed : format.parse? text = some parsed) (overrides : Option Overrides) :
    (format.load files directory path overrides = parsed.merge (overrides.getD {}) location ↔
      parsed.width ≤ maxWidth ∨ maxWidth < (overrides.getD {}).width.getD parsed.width) ∧
    (maxWidth < parsed.width → format.load files directory path overrides = .error .tooWide) := by
  have hfile : format.ofSource files directory path =
      if parsed.width ≤ maxWidth then .ok { parsed with location := some location }
      else .error .tooWide := by
    rw [ofSource_of_decides hdecides, ofFile_of_parse hread hparsed]
  rcases Nat.lt_or_ge maxWidth parsed.width with hwide | hvalid
  · have hload : format.load files directory path overrides = .error .tooWide := by
      rw [if_neg (Nat.not_le.mpr hwide)] at hfile
      exact load_of_error hfile overrides
    refine ⟨?_, fun _ => hload⟩
    rw [hload, merge]
    split
    · rename_i hmerged
      exact ⟨nofun, fun h => by omega⟩
    · rename_i hmerged
      exact ⟨fun _ => .inr (Nat.not_le.mp hmerged), fun _ => rfl⟩
  · rw [if_pos hvalid] at hfile
    have hload := load_of_valid hvalid hfile overrides
    exact ⟨⟨fun _ => .inl hvalid, fun _ => hload⟩, fun hwide => by omega⟩

/-- A file found one directory out, both of whose values are overridden. -/
theorem load_eq_merge_found :
    load ((FileTree.directory [("docs", .empty),
        (Location.fileName, .file "[render]\nindent_width = 3\n".toUTF8)]).files ["docs"])
      ["docs"] none (some ⟨some 8, some .tabs⟩) = .ok ⟨8, .tabs, some (.found [])⟩ := by
  have hparsed : toml.parse? "[render]\nindent_width = 3\n" = some ⟨3, .spaces, none⟩ := by
    decide +kernel
  refine (load_eq_merge_iff ?decides ?read hparsed _).1.mpr (.inl (by decide))
  case decides => exact nearest_eq_some.mp (by decide +kernel)
  case read => decide +kernel

/-- A width that is too great in the file is not made up for by an override. -/
theorem not_every_override_counts : ¬ ∀ (files : Files) (directory : List String)
    (path : Option String) (location : Location) (text : String) (parsed : Settings)
    (overrides : Overrides), Decides files directory path location →
    files.read location = some text → decode? text = some parsed →
    load files directory path (some overrides) = parsed.merge overrides location := by
  intro hall
  let files : Files :=
    ⟨(· = .named "quill.toml"), fun _ => some "[render]\nindent_width = 12\n"⟩
  have hdecides : Decides files [] (some "quill.toml") (.named "quill.toml") := .named _ rfl
  have hparsed : toml.parse? "[render]\nindent_width = 12\n" = some ⟨12, .spaces, none⟩ := by
    decide +kernel
  have hfile : toml.ofSource files [] (some "quill.toml") = .error .tooWide := by
    rw [ofSource_of_decides hdecides, ofFile_of_parse rfl hparsed]
    exact if_neg (by decide)
  have hload := hall files [] _ _ _ _ ⟨some 4, none⟩ hdecides rfl hparsed
  rw [load, load_of_error hfile, merge, if_pos (by decide)] at hload
  exact nomatch hload

end Settings

end HtmlDoc
