import HtmlDoc.Edit
import HtmlDoc.Proofs.Attributes.Merging
import HtmlDoc.Proofs.Element.Accessors

/-!
Spellings: series of settings by accessor names, each name written in any case. A name is kept under
its lowercase form, so that all its spellings share one entry. Main statement: after a series a name
has the value that was set last under one of its spellings, each setting has answered what was there
before it, and the entries under other keys are as they were.
-/

namespace HtmlDoc

/-- The settings of a series as operations. -/
def ElementEdit.settings (series : Entries) : List ElementEdit :=
  series.map fun call => .setAttr call.1 call.2

namespace Element

open ElementEdit (settings runAll)

/-- The keys that a series of settings binds. -/
def boundKeys (series : Entries) : List String := series.map fun call => Name.lower call.1

/-- The entries that a series of settings binds. -/
def boundEntries (series : Entries) : Entries :=
  series.map fun call => (Name.lower call.1, call.2)

/-- The element with entries bound one after the other. -/
def binding (element : Element) (entries : Entries) : Element :=
  { element with attrs := element.attrs.insertAll entries }

/-- What a series of settings makes of an element. -/
structure SetInTurn (before : Element) (series : Entries) (after : Element) : Prop where
  /-- Of the settings under the spellings of a name the last one counts. -/
  last : ∀ {name called value earlier later}, Name.isAccessorName name = true →
    series = earlier ++ (called, value) :: later → Name.lower called = Name.lower name →
      (∀ call ∈ later, Name.lower call.1 ≠ Name.lower name) → after.getAttr name = .ok (some value)
  /-- A name that is set under no spelling has the value it had. -/
  unset : ∀ {name}, Name.isAccessorName name = true →
    (∀ call ∈ series, Name.lower call.1 ≠ Name.lower name) →
      after.getAttr name = before.getAttr name
  /-- Each setting answers what reading its name answers just before it. -/
  answered : ∀ {called value earlier later}, series = earlier ++ (called, value) :: later →
    ∃ here previous next, runAll (settings earlier) before = (.ok (), here) ∧
      here.getAttr called = .ok previous ∧ here.setAttr called value = .ok (previous, next) ∧
      runAll (settings later) next = (.ok (), after)
  /-- Names that differ in the case of ASCII letters only have one entry in one place, which a
  setting under any of them writes. -/
  shared : ∀ {name spelling}, Name.isAccessorName name = true →
    Name.isAccessorName spelling = true → name.toLower = spelling.toLower →
      Name.lower name = Name.lower spelling ∧
      (Name.lower name ∈ after.attrs.keys →
        ∃! place : Nat, after.attrs.keys[place]? = some (Name.lower name)) ∧
      ∀ (place : Nat) (value : AttrValue), after.attrs.keys[place]? = some (Name.lower name) →
        ∃ previous next, after.setAttr spelling value = .ok (previous, next) ∧
          next.attrs.entries = after.attrs.entries.set place (Name.lower name, value)
  /-- The keys that were there keep their places. -/
  places : before.attrs.keys <+: after.attrs.keys
  /-- The entries under keys that are not set are as they were, in their order. -/
  outside : after.attrs.outside (boundKeys series) = before.attrs.outside (boundKeys series)

theorem binding_append (element : Element) (left right : Entries) :
    (element.binding left).binding right = element.binding (left ++ right) := by
  rw [binding, binding, binding, Attributes.insertAll_append]

theorem setAttr_eq_binding (element : Element) {name : String}
    (h : Name.isAccessorName name = true) (value : AttrValue) : element.setAttr name value =
      .ok (element.attrs.get? (Name.lower name), element.binding [(Name.lower name, value)]) := by
  rw [setAttr_eq_ok, Attributes.insert_fst]
  exact ⟨h, rfl, rfl⟩

theorem runAll_settings (element : Element) {series : Entries}
    (h : ∀ call ∈ series, Name.isAccessorName call.1 = true) :
    runAll (settings series) element = (.ok (), element.binding (boundEntries series)) := by
  induction series generalizing element with
  | nil =>
    obtain ⟨tag, attrs, children, void, inline, closed⟩ := element
    rfl
  | cons call series ih =>
    obtain ⟨hfirst, hrest⟩ := List.forall_mem_cons.mp h
    have hrun : (ElementEdit.setAttr call.1 call.2).run element =
        (.ok (.value (element.attrs.get? (Name.lower call.1))),
          element.binding [(Name.lower call.1, call.2)]) := by
      rw [ElementEdit.run, setAttr_eq_binding element hfirst]
      rfl
    rw [settings, List.map_cons, runAll, hrun]
    exact (ih _ hrest).trans (by rw [binding_append]; rfl)

/-- What a name has after entries are bound is what is found under its key among them, or what it
had before. -/
theorem getAttr_binding (element : Element) {name : String} (h : Name.isAccessorName name = true)
    (entries : Entries) : (element.binding entries).getAttr name =
      .ok ((entries.reverse.lookup (Name.lower name)).or
        (element.attrs.get? (Name.lower name))) := by
  rw [getAttr_eq_ok, binding, Attributes.get?_insertAll]
  exact ⟨h, rfl⟩

theorem lookup_boundEntries_eq_none {series : Entries} {key : String}
    (h : ∀ call ∈ series, Name.lower call.1 ≠ key) :
    (boundEntries series).reverse.lookup key = none := by
  rw [List.lookup_eq_none_iff]
  intro entry hentry
  obtain ⟨call, hcall, rfl⟩ := List.mem_map.mp (List.mem_reverse.mp hentry)
  simpa using Ne.symm (h call hcall)

/-- The value that a series leaves under a key is that of the last setting that binds it. -/
theorem lookup_boundEntries {series earlier later : Entries} {called key : String}
    {value : AttrValue} (hcut : series = earlier ++ (called, value) :: later)
    (hcalled : Name.lower called = key) (hlater : ∀ call ∈ later, Name.lower call.1 ≠ key) :
    (boundEntries series).reverse.lookup key = some value := by
  have hbound : boundEntries series =
      boundEntries earlier ++ (key, value) :: boundEntries later := by
    rw [hcut, boundEntries, List.map_append, List.map_cons, hcalled]
    rfl
  rw [hbound, List.reverse_append, List.reverse_cons, List.append_assoc, List.lookup_append,
    lookup_boundEntries_eq_none hlater, Option.none_or, List.singleton_append,
    List.lookup_cons_self]

/-- Setting a name by another spelling of it writes its entry where it stands. -/
theorem setAttr_eq_set (element : Element) {name spelling : String}
    (hspelling : Name.isAccessorName spelling = true) (h : Name.lower name = Name.lower spelling)
    {place : Nat} (hplace : element.attrs.keys[place]? = some (Name.lower name))
    (value : AttrValue) : ∃ previous next, element.setAttr spelling value = .ok (previous, next) ∧
      next.attrs.entries = element.attrs.entries.set place (Name.lower name, value) := by
  refine ⟨_, _, setAttr_eq_ok.mpr ⟨hspelling, rfl, rfl⟩, ?_⟩
  rw [← h]
  exact Entries.insert_eq_set element.attrs.nodup hplace value

/-- Accessor names are the same in every case. A series of settings by accessor names succeeds, and
leaves under each name the value that was set last under one of its spellings, or the one from before
if there is none. Each setting answers what was there before it. Spellings of a name share one entry,
and all entries under keys that the series does not bind stay as they are. -/
theorem settings_caseless (element : Element) (series : Entries)
    (h : ∀ call ∈ series, Name.isAccessorName call.1 = true) :
    ∃ after, runAll (settings series) element = (.ok (), after) ∧
      SetInTurn element series after := by
  refine ⟨_, runAll_settings element h, ?_⟩
  constructor
  case last =>
    intro name called value earlier later hname hcut hcalled hlater
    rw [getAttr_binding element hname, lookup_boundEntries hcut hcalled hlater]
    rfl
  case unset =>
    intro name hname hunset
    rw [getAttr_binding element hname, lookup_boundEntries_eq_none hunset, Option.none_or, eq_comm,
      getAttr_eq_ok]
    exact ⟨hname, rfl⟩
  case answered =>
    rintro called value earlier later rfl
    rw [List.forall_mem_append, List.forall_mem_cons] at h
    obtain ⟨hearlier, hcalled, hlater⟩ := h
    refine ⟨_, _, _, runAll_settings element hearlier, getAttr_eq_ok.mpr ⟨hcalled, rfl⟩,
      setAttr_eq_binding _ hcalled value, ?_⟩
    have hcut : boundEntries (earlier ++ (called, value) :: later) =
        boundEntries earlier ++ ([(Name.lower called, value)] ++ boundEntries later) := by
      rw [boundEntries, List.map_append, List.map_cons]
      rfl
    rw [runAll_settings _ hlater, binding_append, binding_append, hcut]
  case shared =>
    intro name spelling hname hspelling hcase
    have hlower := Name.lower_eq_of_toLower_eq hcase
    refine ⟨hlower, ?_, fun place value hplace => setAttr_eq_set _ hspelling hlower hplace value⟩
    intro hbound
    -- No key comes twice, so there is no other place.
    obtain ⟨place, hplace⟩ := List.mem_iff_getElem?.mp hbound
    refine ⟨place, hplace, fun other hother => ?_⟩
    have hlt : other < (element.binding (boundEntries series)).attrs.keys.length :=
      (List.getElem?_eq_some_iff.mp hother).1
    exact (List.getElem?_inj hlt (Attributes.nodup _)).mp (hother.trans hplace.symm)
  case places => exact Attributes.keys_prefix_insertAll _ _
  case outside =>
    apply Attributes.outside_insertAll
    intro entry hentry
    obtain ⟨call, hcall, rfl⟩ := List.mem_map.mp hentry
    exact List.mem_map.mpr ⟨call, hcall, rfl⟩

/-- A key with a capital letter that was bound as it stands, and settings by spellings of two names,
the kelvin sign among them. -/
theorem settings_caseless_mixed :
    let element : Element :=
      ⟨"div", .ofList [("ID", .nil), ("k", .nil), ("title", .flag true)], [], false, false, true⟩
    let series : Entries := [("Id", .flag true), ("\u212A", .flag true), ("iD", .flag false),
      ("K", .flag false)]
    ∃ after, runAll (settings series) element = (.ok (), after) ∧
      after.getAttr "ID" = .ok (some (.flag false)) ∧ after.getAttr "k" = .ok (some (.flag false)) ∧
      after.getAttr "Title" = element.getAttr "Title" ∧
      after.attrs.outside (boundKeys series) = [("ID", .nil), ("title", .flag true)] := by
  intro element series
  obtain ⟨after, hrun, hset⟩ := settings_caseless element series (by decide)
  have hid : series = series.take 2 ++ ("iD", .flag false) :: [("K", .flag false)] := rfl
  have hk : series = series.take 3 ++ ("K", .flag false) :: [] := rfl
  refine ⟨after, hrun, ?_, ?_, ?_, ?_⟩
  · exact hset.last (by decide) hid (by decide) (by decide)
  · exact hset.last (by decide) hk (by decide) (by decide)
  · exact hset.unset (by decide) (by decide)
  · exact hset.outside.trans (by decide)

end Element

end HtmlDoc
