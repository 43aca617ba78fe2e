import HtmlDoc.Proofs.Name.Accessor
import HtmlDoc.Proofs.Tree.Reachable

/-!
Names in reachable elements. Tags and keys have passed a check on their way in, and every operation
keeps it so. A key came by one of two ways, and the ways differ in one character: accessor names
are compared without regard to case, so that the long s counts as a letter, and lowercasing leaves
it where it is.
-/

namespace HtmlDoc

/-- The tag and the keys of an element have passed the check of the way they came. -/
structure Element.Named (element : Element) : Prop where
  tag : ∃ name, Name.isElementName name = true ∧ element.tag = Name.lower name
  keys : ∀ key ∈ element.attrs.keys, Name.isKey key = true ∨
    ∃ name, Name.isAccessorName name = true ∧ key = Name.lower name

namespace Element

theorem Named.ofTag {tag : String} {element : Element} (h : Element.ofTag tag = .ok element) :
    element.Named := by
  obtain ⟨htag, rfl⟩ := ofTag_eq_ok.mp h
  exact ⟨⟨tag, htag, rfl⟩, fun _ hm => absurd hm List.not_mem_nil⟩

theorem Named.insert {element : Element} {key : String} (value : AttrValue)
    (hkey : Name.isKey key = true ∨ ∃ name, Name.isAccessorName name = true ∧ key = Name.lower name)
    (h : element.Named) :
    Named { element with attrs := (element.attrs.insert key value).2 } := by
  refine ⟨h.tag, fun other hm => ?_⟩
  obtain rfl | hm := Attributes.mem_keys_insert.mp hm
  · exact hkey
  · exact h.keys other hm

theorem named_kept : Kept Named where
  ofTag := Named.ofTag
  children _ h := ⟨h.tag, h.keys⟩
  bind value hkey h := h.insert value (Or.inl hkey)
  access value hname h := h.insert value (Or.inr ⟨_, hname, rfl⟩)
  unbind _ h := ⟨h.tag, fun other hm => h.keys other (Attributes.mem_keys_of_remove hm)⟩
  inline h := ⟨h.tag, h.keys⟩
  closed h := ⟨h.tag, h.keys⟩

theorem Reachable.named {element : Element} (h : element.Reachable) : element.Throughout Named :=
  h.throughout named_kept

/-- A key of an element whose names are checked is safe in markup, or the long s is in it and it is
an accessor name in lower case. -/
theorem Named.isKey_iff {element : Element} (h : element.Named) {key : String}
    (hm : key ∈ element.attrs.keys) :
    (Name.isKey key = true ↔ '\u017F' ∉ key.toList) ∧
      ('\u017F' ∈ key.toList → Name.isAccessorName key = true ∧ Name.lower key = key) := by
  obtain hkey | ⟨name, hname, rfl⟩ := h.keys key hm
  · -- A key that came as it stands is of ASCII characters, and the long s is none.
    have hfree : '\u017F' ∉ key.toList := by
      intro hin
      exact absurd (Name.isKeyPart_of_isKey hkey _ hin) (by decide)
    exact ⟨iff_of_true hkey hfree, fun hin => absurd hin hfree⟩
  · -- One that came as an accessor name can be given by the same name again.
    refine ⟨?_, fun _ => Name.lower_isAccessorName hname⟩
    rw [Name.isKey_lower_iff hname, Name.longS_mem_lower_iff hname]

/-- An accessor name with the long s is bound like any other, under a key that is not safe. -/
theorem Reachable.exists_unsafe_key {element : Element} (h : element.Reachable) {name : String}
    (hname : Name.isAccessorName name = true) (hs : '\u017F' ∈ name.toList) (value : AttrValue) :
    ∃ previous changed, element.setAttr name value = .ok (previous, changed) ∧
      changed.Reachable ∧ Name.lower name ∈ changed.attrs.keys ∧
      Name.isKey (Name.lower name) = false := by
  have hset : element.setAttr name value = .ok ((element.attrs.insert (Name.lower name) value).1,
      { element with attrs := (element.attrs.insert (Name.lower name) value).2 }) :=
    setAttr_eq_ok.mpr ⟨hname, rfl, rfl⟩
  refine ⟨_, _, hset, h.setAttr hset, Attributes.mem_keys_insert.mpr (Or.inl rfl), ?_⟩
  rw [Bool.eq_false_iff]
  intro hkey
  exact (Name.isKey_lower_iff hname).mp hkey hs

/-- Which keys of a reachable element are safe in markup: those without the long s, at any depth. The
others came as accessor names in lower case, and each accessor name with the long s does get in. -/
theorem Reachable.safe_keys {element : Element} (h : element.Reachable) :
    (∀ inner ∈ element.preorder, ∀ key ∈ inner.attrs.keys,
      (Name.isKey key = true ↔ '\u017F' ∉ key.toList) ∧
        ('\u017F' ∈ key.toList → Name.isAccessorName key = true ∧ Name.lower key = key)) ∧
      ∀ name value, Name.isAccessorName name = true → '\u017F' ∈ name.toList →
        ∃ previous changed, element.setAttr name value = .ok (previous, changed) ∧
          changed.Reachable ∧ Name.lower name ∈ changed.attrs.keys ∧
          Name.isKey (Name.lower name) = false := by
  constructor
  · intro inner hi key hm
    exact (h.named inner hi).isKey_iff hm
  · intro name value hname hs
    exact h.exists_unsafe_key hname hs value

/-- One key of each way, and the long s that still gets in: all three cases at one element. -/
theorem safe_keys_both_ways : ∃ element : Element, element.Reachable ∧
    element.attrs.keys = ["data-id", "\u017Ftyle"] ∧ Name.isKey "data-id" = true ∧
    Name.isKey "\u017Ftyle" = false ∧
    ∃ previous changed, element.setAttr "\u017F" .nil = .ok (previous, changed) ∧
      changed.Reachable ∧ Name.lower "\u017F" ∈ changed.attrs.keys ∧
      Name.isKey (Name.lower "\u017F") = false := by
  have hfresh : Reachable ⟨"a", .empty, [], false, true, true⟩ :=
    .ofTag (show Element.ofTag "a" = .ok _ from rfl)
  have hbound := hfresh.bindAttr (show bindAttr _ "data-id" (.flag true) = .ok (_, _) from rfl)
  have hset := hbound.setAttr (show setAttr _ "\u017FTYLE" (.flag true) = .ok (_, _) from rfl)
  obtain ⟨hkeys, hunsafe⟩ := hset.safe_keys
  have hown := hkeys _ (by rw [preorder_eq]; exact List.mem_cons_self)
  refine ⟨_, hset, rfl, ?_, ?_, hunsafe "\u017F" .nil (by decide) (by decide)⟩
  · exact (hown "data-id" (by decide)).1.mpr (by decide)
  · rw [Bool.eq_false_iff]
    intro hkey
    exact (hown "\u017Ftyle" (by decide)).1.mp hkey (by decide)

/-- Not every key that can be bound is safe: the long s is bound as an accessor name. -/
theorem not_all_keys_safe : ¬ ∀ element : Element, element.Reachable →
    ∀ inner ∈ element.preorder, ∀ key ∈ inner.attrs.keys, Name.isKey key = true := by
  intro hall
  have hfresh : Reachable ⟨"a", .empty, [], false, true, true⟩ :=
    .ofTag (show Element.ofTag "a" = .ok _ from rfl)
  have hset := hfresh.setAttr (show setAttr _ "\u017F" (.text (.plain "x")) = .ok (_, _) from rfl)
  have hkey := hall _ hset _ (by rw [preorder_eq]; exact List.mem_cons_self) "\u017F" (by decide)
  exact absurd hkey (by decide)

end Element

end HtmlDoc
