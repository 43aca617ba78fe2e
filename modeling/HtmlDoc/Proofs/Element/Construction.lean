import HtmlDoc.Element
import HtmlDoc.Proofs.Attributes.Merging

/-!
Construction of elements from a tag, content and attributes. What is wrong with them is listed in
the order in which it is found; main statement: the first fault is the error, and without one the
element has the tag, the keys and the children that it was given.
-/

namespace HtmlDoc

/-- The first of the faults, or the value if there are none. -/
def MarkupError.firstOr {α : Type} (faults : List MarkupError) (value : α) : Except MarkupError α :=
  match faults with
  | [] => .ok value
  | error :: _ => .error error

open MarkupError (firstOr)

/-- What follows where there are no faults adds its own behind them. -/
theorem MarkupError.firstOr_bind {α β : Type} {faults rest : List MarkupError} {value : α}
    {result : β} {next : α → Except MarkupError β} (h : next value = firstOr rest result) :
    firstOr faults value >>= next = firstOr (faults ++ rest) result := by
  cases faults with
  | nil => exact h
  | cons error faults => rfl

theorem MarkupError.firstOr_eq_ok {α : Type} {faults : List MarkupError} {value result : α} :
    firstOr faults value = .ok result ↔ faults = [] ∧ value = result := by
  cases faults with
  | nil => simp [firstOr]
  | cons error faults => simp [firstOr]

theorem MarkupError.firstOr_eq_error {α : Type} {faults : List MarkupError} {value : α}
    {error : MarkupError} : firstOr faults value = .error error ↔ faults.head? = some error := by
  cases faults with
  | nil => simp [firstOr]
  | cons error faults => simp [firstOr]

/-- The attributes that come as content. -/
def Content.entries : Content → Entries
  | .attrs given => given.entries
  | .empty | .text _ | .element _ | .tree _ => []

/-- The children that come as content. A text is escaped once. -/
def Content.nodes : Content → List Node
  | .text fragment => [.text fragment.escapeOnce]
  | .element child => [.element child]
  | .tree nodes => nodes
  | .empty | .attrs _ => []

namespace Element

/-- What is wrong with a tag that is to be written. -/
def tagFaults (tag : String) : List MarkupError :=
  if Name.isElementName tag then [] else [.unknownMember tag]

/-- What is wrong with keys that are to be written, in their order. -/
def keyFaults (keys : List String) : List MarkupError :=
  (keys.filter fun key => !Name.isKey key).map .unknownMember

/-- The element of this tag with this content and these attributes. -/
def composed (tag : String) (content : Content) (attrs : Attributes) : Element where
  tag := Name.lower tag
  attrs := .ofList (content.entries ++ attrs.entries)
  children := content.nodes
  void := Name.isVoid (Name.lower tag)
  inline := Name.isInline (Name.lower tag)
  closed := !Name.isVoid (Name.lower tag)

theorem bindAttrs_eq (element : Element) (entries : Entries) :
    element.bindAttrs entries = firstOr (keyFaults (Entries.keys entries))
      { element with attrs := element.attrs.insertAll entries } := by
  induction entries generalizing element with
  | nil =>
    obtain ⟨tag, attrs, children, void, inline, closed⟩ := element
    rfl
  | cons entry entries ih =>
    rw [bindAttrs, bindAttr]
    by_cases hkey : Name.isKey entry.1 = true
    · have hfaults : keyFaults (Entries.keys (entry :: entries)) =
          keyFaults (Entries.keys entries) := by
        simp [keyFaults, Entries.keys, hkey]
      rw [if_pos hkey, hfaults]
      exact ih _
    · have hfaults : keyFaults (Entries.keys (entry :: entries)) =
          .unknownMember entry.1 :: keyFaults (Entries.keys entries) := by
        simp [keyFaults, Entries.keys, hkey]
      rw [if_neg hkey, hfaults]
      rfl

theorem ofList_append (left right : Entries) :
    Attributes.ofList (left ++ right) = (Attributes.ofList left).insertAll right :=
  Attributes.insertAll_append .empty left right

theorem compose_eq (tag : String) (content : Content) (attrs : Attributes) :
    compose tag content attrs =
      firstOr (tagFaults tag ++ (keyFaults (Entries.keys content.entries) ++ keyFaults attrs.keys))
        (composed tag content attrs) := by
  have htag : ofTag tag = firstOr (tagFaults tag) (composed tag .empty .empty) := by
    rw [ofTag, tagFaults]
    split <;> rfl
  have hfill : (composed tag .empty .empty).fill content =
      firstOr (keyFaults (Entries.keys content.entries)) (composed tag content .empty) := by
    cases content with
    | attrs given =>
      have hgiven : given.entries ++ Attributes.empty.entries = given.entries := List.append_nil _
      rw [fill, bindAttrs_eq, composed, composed, Content.entries, hgiven]
      rfl
    | _ => rfl
  have hbind : (composed tag content .empty).bindAttrs attrs.entries =
      firstOr (keyFaults attrs.keys) (composed tag content attrs) := by
    rw [bindAttrs_eq, composed, composed, ofList_append, ofList_append]
    rfl
  rw [compose, htag]
  apply MarkupError.firstOr_bind
  rw [hfill]
  exact MarkupError.firstOr_bind hbind

theorem keyFaults_append (left right : List String) :
    keyFaults (left ++ right) = keyFaults left ++ keyFaults right := by
  rw [keyFaults, List.filter_append, List.map_append]
  rfl

theorem keyFaults_eq_nil {keys : List String} :
    keyFaults keys = [] ↔ ∀ key ∈ keys, Name.isKey key = true := by
  simp [keyFaults]

/-- The first fault of a list of keys is that of the first key that cannot be written. -/
theorem head?_keyFaults {keys : List String} {error : MarkupError} :
    (keyFaults keys).head? = some error ↔ ∃ before key after, keys = before ++ key :: after ∧
      (∀ earlier ∈ before, Name.isKey earlier = true) ∧ Name.isKey key = false ∧
        error = .unknownMember key := by
  rw [keyFaults, List.head?_map, List.head?_filter, Option.map_eq_some_iff]
  simp only [List.find?_eq_some_iff_append, Bool.not_eq_true', Bool.not_not]
  constructor
  · rintro ⟨key, ⟨hkey, before, after, hcut, hbefore⟩, rfl⟩
    exact ⟨before, key, after, hcut, hbefore, hkey, rfl⟩
  · rintro ⟨before, key, after, hcut, hbefore, hkey, rfl⟩
    exact ⟨key, ⟨hkey, before, after, hcut, hbefore⟩, rfl⟩

theorem tagFaults_eq_nil {tag : String} : tagFaults tag = [] ↔ Name.isElementName tag = true := by
  rw [tagFaults]
  split
  · rename_i h
    exact iff_of_true rfl h
  · rename_i h
    exact iff_of_false (List.cons_ne_nil _ _) h

theorem nodup_keys_entries (content : Content) : (Entries.keys content.entries).Nodup := by
  cases content with
  | attrs given => exact given.nodup
  | _ => exact List.nodup_nil

section Merged

variable (tag : String) (content : Content) (attrs : Attributes)

theorem keys_composed : (composed tag content attrs).attrs.keys =
    Entries.keys content.entries ++
      attrs.keys.filter fun key => key ∉ Entries.keys content.entries := by
  have hcontent : (Attributes.ofList content.entries).keys = Entries.keys content.entries :=
    congrArg Entries.keys (Attributes.empty.entries_insertAll (nodup_keys_entries content))
  have hattrs : (composed tag content attrs).attrs =
      (Attributes.ofList content.entries).insertAll attrs.entries := ofList_append _ _
  rw [hattrs, Attributes.keys_insertAll _ attrs.nodup, hcontent]
  rfl

theorem get?_composed (key : String) : (composed tag content attrs).attrs.get? key =
    (attrs.get? key).or (content.entries.lookup key) := by
  have hcontent : (Attributes.ofList content.entries).get? key = content.entries.lookup key := by
    have hempty : Attributes.empty.get? key = none := rfl
    rw [Attributes.ofList, Attributes.get?_insertAll, hempty, Option.or_none,
      Entries.lookup_reverse (nodup_keys_entries content)]
  have hattrs : (composed tag content attrs).attrs =
      (Attributes.ofList content.entries).insertAll attrs.entries := ofList_append _ _
  rw [hattrs, Attributes.get?_insertAll, hcontent, Entries.lookup_reverse attrs.nodup]
  rfl

/-- When an element can be composed, and of what it is. It takes a tag and keys that can be written;
of several faults the first one in the order tag, keys of the content, keys of the attributes is
told. The element has the attributes collected from those of the content and then the given ones: a
key of both has its place among the former and its value from the latter. Its children are what the
content stands for. -/
theorem compose_exact :
    ((∃ element, compose tag content attrs = .ok element) ↔ Name.isElementName tag = true ∧
      (∀ key ∈ Entries.keys content.entries, Name.isKey key = true) ∧
      ∀ key ∈ attrs.keys, Name.isKey key = true) ∧
    (∀ error, compose tag content attrs = .error error ↔
      (Name.isElementName tag = false ∧ error = .unknownMember tag) ∨
      (Name.isElementName tag = true ∧ ∃ before key after,
        Entries.keys content.entries ++ attrs.keys = before ++ key :: after ∧
        (∀ earlier ∈ before, Name.isKey earlier = true) ∧ Name.isKey key = false ∧
        error = .unknownMember key)) ∧
    ∀ element, compose tag content attrs = .ok element →
      element.tag = Name.lower tag ∧
      element.attrs = .ofList (content.entries ++ attrs.entries) ∧
      element.attrs.keys = Entries.keys content.entries ++
        attrs.keys.filter (fun key => key ∉ Entries.keys content.entries) ∧
      (∀ key, element.attrs.get? key = (attrs.get? key).or (content.entries.lookup key)) ∧
      element.children = match content with
        | .text fragment => [.text (.markup fragment.asMarkup)]
        | .element child => [.element child]
        | .tree nodes => nodes
        | .empty | .attrs _ => [] := by
  rw [compose_eq, ← keyFaults_append]
  refine ⟨?succeeds, ?fails, ?made⟩
  case succeeds =>
    simp only [MarkupError.firstOr_eq_ok, exists_and_left, exists_eq', and_true,
      List.append_eq_nil_iff, tagFaults_eq_nil, keyFaults_eq_nil, List.forall_mem_append]
  case fails =>
    intro error
    rw [MarkupError.firstOr_eq_error, ← head?_keyFaults]
    -- The keys are looked at only where the tag can be written.
    by_cases htag : Name.isElementName tag = true
    · have hfaults : tagFaults tag = [] := tagFaults_eq_nil.mpr htag
      simp [hfaults, htag]
    · have hfaults : tagFaults tag = [.unknownMember tag] := if_neg htag
      simp [hfaults, htag, eq_comm]
  case made =>
    intro element helement
    obtain ⟨-, rfl⟩ := MarkupError.firstOr_eq_ok.mp helement
    refine ⟨rfl, rfl, keys_composed tag content attrs, get?_composed tag content attrs, ?_⟩
    cases content <;> rfl

end Merged

/-- Keys of the content come again among the attributes, with a new one in front of them. Of bad keys
in both lists, with a good one before them, the one of the content is told. -/
theorem compose_exact_overlap :
    (∃ element, compose "DIV" (.attrs (.ofList [("id", .nil), ("class", .flag false)]))
        (.ofList [("title", .nil), ("class", .flag true)]) = .ok element ∧
      element.tag = "div" ∧ element.attrs.keys = ["id", "class", "title"] ∧
      element.attrs.get? "class" = some (.flag true)) ∧
    compose "p" (.attrs (.ofList [("id", .nil), ("a b", .nil)])) (.ofList [("<", .nil)]) =
      .error (.unknownMember "a b") := by
  constructor
  · obtain ⟨hok, -, hmade⟩ := compose_exact "DIV"
      (.attrs (.ofList [("id", .nil), ("class", .flag false)]))
      (.ofList [("title", .nil), ("class", .flag true)])
    obtain ⟨element, helement⟩ := hok.mpr (by decide)
    obtain ⟨htag, -, hkeys, hget, -⟩ := hmade element helement
    refine ⟨element, helement, ?_, ?_, ?_⟩
    · exact htag.trans (by decide)
    · exact hkeys.trans (by decide)
    · exact (hget "class").trans (by decide)
  · refine ((compose_exact _ _ _).2.1 _).mpr (Or.inr ⟨by decide, ["id"], "a b", ["<"], ?_⟩)
    exact ⟨by decide, by decide, by decide, rfl⟩

end Element

end HtmlDoc
