import HtmlDoc.Proofs.Attributes.Bindings
import HtmlDoc.Proofs.Layout.Composition
import HtmlDoc.Proofs.Name.Nesting
import HtmlDoc.Proofs.Text.Quiet
import HtmlDoc.Proofs.Tree.Names

/-!
Closing tags: which elements are written with one. What tells a closing tag from the end of an
opening tag is the last delimiter in the text: before the name of a closing tag stands a slash, and
before what an opening tag ends with a bracket, a blank or a quote. Main statement: the closing tag
is missing where it is not forced and there is no child.
-/

namespace HtmlDoc

/-- The markup ends with the closing tag of the element. A block element ends its line behind it. -/
def Element.ClosesIn (element : Element) (markup : String) : Prop :=
  ∃ before, markup = before ++ "</" ++ element.tag ++ ">" ++ (if element.inline then "" else "\n")

namespace Text

/-- The characters that can stand before the last word of a tag. -/
def isDelimiter (c : Char) : Bool := c == '<' || c == '/' || c == ' ' || c == '"'

def lastDelimiter? (text : String) : Option Char := text.toList.reverse.find? isDelimiter

theorem lastDelimiter?_append (left right : String) :
    lastDelimiter? (left ++ right) = (lastDelimiter? right).or (lastDelimiter? left) := by
  rw [lastDelimiter?, String.toList_append, List.reverse_append, List.find?_append]
  rfl

theorem lastDelimiter?_eq_none {text : String} (h : ∀ c ∈ text.toList, isDelimiter c = false) :
    lastDelimiter? text = none := by
  rw [lastDelimiter?, List.find?_eq_none]
  intro c hc
  rw [h c (List.mem_reverse.mp hc)]
  exact Bool.false_ne_true

/-- Some other delimiter than a slash comes last, or none does. -/
def NoSlashLast (text : String) : Prop := lastDelimiter? text ≠ some '/'

theorem noSlashLast_of_not_mem {text : String} (h : '/' ∉ text.toList) : NoSlashLast text := by
  intro hlast
  exact h (List.mem_reverse.mp (List.mem_of_find?_eq_some hlast))

theorem NoSlashLast.append {left right : String} (hleft : NoSlashLast left)
    (hright : NoSlashLast right) : NoSlashLast (left ++ right) := by
  rw [NoSlashLast, lastDelimiter?_append]
  cases hlast : lastDelimiter? right with
  | none => exact hleft
  | some c =>
    rw [Option.some_or, ← hlast]
    exact hright

end Text

open Text (lastDelimiter? lastDelimiter?_append lastDelimiter?_eq_none NoSlashLast
  noSlashLast_of_not_mem)

theorem AttrValue.noSlashLast_written {key : String} (h : '/' ∉ key.toList) (value : AttrValue) :
    NoSlashLast (value.written key) := by
  rw [AttrValue.written]
  split
  · exact noSlashLast_of_not_mem (by decide)
  split
  · exact (noSlashLast_of_not_mem (by decide)).append (noSlashLast_of_not_mem h)
  · -- Whatever the value holds, a quote stands behind it.
    have hquote : lastDelimiter? "\"" = some '"' := rfl
    rw [NoSlashLast, lastDelimiter?_append, hquote, Option.some_or]
    decide

theorem Attributes.noSlashLast_written {attrs : Attributes}
    (h : ∀ key ∈ attrs.keys, '/' ∉ key.toList) : NoSlashLast attrs.written := by
  rw [Attributes.keys] at h
  rw [Attributes.written]
  generalize attrs.entries = entries at h
  induction entries with
  | nil => exact noSlashLast_of_not_mem (by decide)
  | cons entry entries ih =>
    rw [Entries.keys_cons, List.forall_mem_cons] at h
    rw [List.map_cons, String.join_cons]
    exact (entry.2.noSlashLast_written h.1).append (ih h.2)

namespace Element

theorem Named.isElementName_tag {element : Element} (h : element.Named) :
    Name.isElementName element.tag = true := by
  obtain ⟨name, hname, htag⟩ := h.tag
  rw [htag]
  exact Name.isElementName_lower hname

theorem Named.isDelimiter_tag {element : Element} (h : element.Named) :
    ∀ c ∈ element.tag.toList, Text.isDelimiter c = false := by
  intro c hc
  have hpart := Name.isElementName_mem h.isElementName_tag c hc
  rw [Bool.eq_false_iff]
  intro hdelimiter
  simp only [Text.isDelimiter, Bool.or_eq_true, beq_iff_eq] at hdelimiter
  rcases hdelimiter with ((rfl | rfl) | rfl) | rfl <;> exact absurd hpart (by decide)

theorem Named.slash_not_mem_keys {element : Element} (h : element.Named) :
    ∀ key ∈ element.attrs.keys, '/' ∉ key.toList := by
  intro key hkey hslash
  obtain hwritten | ⟨name, hname, rfl⟩ := h.keys key hkey
  · exact absurd (Name.isKeyPart_of_isKey hwritten '/' hslash) (by decide)
  · have haccessor := (Name.lower_isAccessorName hname).1
    exact Name.not_mem_of_isAccessorName haccessor '/' (by decide) (by decide) hslash

theorem lastDelimiter?_ending (inline : Bool) :
    lastDelimiter? (if inline then "" else "\n") = none := by
  cases inline <;> rfl

theorem ClosesIn.lastDelimiter?_eq {element : Element} {markup : String}
    (h : element.ClosesIn markup) (hn : element.Named) : lastDelimiter? markup = some '/' := by
  obtain ⟨before, rfl⟩ := h
  have hslash : lastDelimiter? "</" = some '/' := rfl
  have hbracket : lastDelimiter? ">" = none := rfl
  simp only [lastDelimiter?_append, lastDelimiter?_eq_none hn.isDelimiter_tag,
    lastDelimiter?_ending, hslash, hbracket, Option.none_or, Option.some_or]

/-- What an opening tag ends with stands behind another delimiter than a slash. -/
theorem Named.lastDelimiter?_openingTag {element : Element} (h : element.Named) :
    ∃ c, c ≠ '/' ∧ lastDelimiter? (openingTag element.tag element.attrs) = some c := by
  have hopen : lastDelimiter? "<" = some '<' := rfl
  have hbracket : lastDelimiter? ">" = none := rfl
  have hwritten := Attributes.noSlashLast_written h.slash_not_mem_keys
  simp only [openingTag, lastDelimiter?_append, lastDelimiter?_eq_none h.isDelimiter_tag, hopen,
    hbracket, Option.none_or]
  cases hlast : lastDelimiter? element.attrs.written with
  | none => exact ⟨'<', by decide, rfl⟩
  | some c =>
    refine ⟨c, ?_, rfl⟩
    rintro rfl
    exact hwritten hlast

theorem elementText_of_open {element : Element} (hclosed : element.closed = false)
    (hchildren : element.children = []) (layout : Layout) (depth : Nat) (fresh : Bool) :
    layout.elementText depth fresh element =
      layout.lead depth fresh element.inline ++ openingTag element.tag element.attrs ++
        (if element.inline then "" else "\n") := by
  obtain ⟨tag, attrs, children, void, inline, closed⟩ := element
  cases hclosed
  cases hchildren
  cases inline with
  | true => simp [Layout.elementText, Layout.treeText, closingTag]
  | false => simp [Layout.elementText, closingTag]

theorem closesIn_elementText {element : Element}
    (h : element.closed = true ∨ element.children ≠ []) (layout : Layout) (depth : Nat)
    (fresh : Bool) : element.ClosesIn (layout.elementText depth fresh element) := by
  obtain ⟨tag, attrs, children, void, inline, closed⟩ := element
  have hclosing : closingTag tag (closed || !children.isEmpty) = "</" ++ tag ++ ">" := by
    apply if_pos
    simpa using h
  simp only [Layout.elementText, hclosing]
  cases inline with
  | true =>
    refine ⟨layout.lead depth fresh true ++ openingTag tag attrs ++
      layout.treeText (depth + 1) false children, ?_⟩
    simp [String.append_assoc]
  | false =>
    rw [if_neg Bool.false_ne_true]
    split
    · refine ⟨layout.lead depth fresh false ++ openingTag tag attrs, ?_⟩
      simp [String.append_assoc]
    · refine ⟨layout.lead depth fresh false ++ openingTag tag attrs ++ "\n" ++
        layout.treeText (depth + 1) true children ++
        Layout.lineEnd (layout.treeText (depth + 1) true children) ++ layout.indentation depth, ?_⟩
      simp [String.append_assoc]

/-- An element is written with a closing tag at its end if one is forced or there are children, and
without one otherwise. -/
theorem closesIn_elementMarkup_iff {element : Element} (h : element.Named) (layout : Layout)
    (depth : Nat) (fresh : Bool) :
    element.ClosesIn (layout.elementMarkup element depth fresh).text ↔
      element.closed = true ∨ element.children ≠ [] := by
  rw [Layout.elementMarkup_eq]
  refine ⟨fun hcloses => ?_, fun hcloses => closesIn_elementText hcloses layout depth fresh⟩
  by_contra hopen
  rw [not_or, Bool.not_eq_true, not_not] at hopen
  -- Nothing stands behind the opening tag then, so its last delimiter is that of the whole text.
  obtain ⟨c, hne, hlast⟩ := h.lastDelimiter?_openingTag
  have hsame : some c = some '/' := calc
    some c = lastDelimiter? (layout.lead depth fresh element.inline ++
        openingTag element.tag element.attrs ++ (if element.inline then "" else "\n")) := by
      rw [lastDelimiter?_append, lastDelimiter?_append, lastDelimiter?_ending, hlast,
        Option.none_or, Option.some_or]
    _ = lastDelimiter? (layout.elementText depth fresh element) := by
      rw [elementText_of_open hopen.1 hopen.2]
    _ = some '/' := hcloses.lastDelimiter?_eq h
  exact hne (Option.some.inj hsame)

end Element

end HtmlDoc
