import HtmlDoc.Content
import HtmlDoc.Except
import HtmlDoc.Layout

/-!
Elements: how they come to be, and what can be done to them. Names are checked where they enter.
Keys enter by two ways: `setAttr` takes accessor names, which are lowercased, and `bindAttr` takes
any key that can be written, as it stands.
-/

namespace HtmlDoc.Element

/-- An element with neither attributes nor children. The tag is lowercased, and decides whether the
element is void, whether it is inline and whether it needs a closing tag. This is kept in flags, and
the tag is not looked up again. -/
def ofTag (tag : String) : Except MarkupError Element :=
  if Name.isElementName tag then
    let tag := Name.lower tag
    let void := Name.isVoid tag
    .ok { tag, attrs := .empty, children := [], void, inline := Name.isInline tag, closed := !void }
  else .error (.unknownMember tag)

/-- Whether the element was made with a tag that needs no closing tag. -/
def isVoid (element : Element) : Bool := element.void

/-- Binds a key as it stands, and answers the value it had. -/
def bindAttr (element : Element) (key : String) (value : AttrValue) :
    Except MarkupError (Option AttrValue × Element) :=
  if Name.isKey key then
    let (previous, attrs) := element.attrs.insert key value
    .ok (previous, { element with attrs })
  else .error (.unknownMember key)

/-- Binds the keys of a list one after the other. The first key that cannot be written ends it. -/
def bindAttrs (element : Element) : Entries → Except MarkupError Element
  | [] => .ok element
  | entry :: entries =>
    match element.bindAttr entry.1 entry.2 with
    | .ok (_, element) => element.bindAttrs entries
    | .error error => .error error

/-- Gives a new element its content. Text is escaped once, a tree is taken as it is. -/
def fill (element : Element) : Content → Except MarkupError Element
  | .empty => .ok element
  | .text fragment => .ok { element with children := [.text fragment.escapeOnce] }
  | .element child => .ok { element with children := [.element child] }
  | .tree nodes => .ok { element with children := nodes }
  | .attrs attrs => element.bindAttrs attrs.entries

/-- An element with content and attributes. Attributes given in place of content come first. -/
def compose (tag : String) (content : Content) (attrs : Attributes) :
    Except MarkupError Element := do
  let element ← ofTag tag
  let element ← element.fill content
  element.bindAttrs attrs.entries

theorem ofTag_eq_ok {tag : String} {element : Element} :
    ofTag tag = .ok element ↔ Name.isElementName tag = true ∧
      element = { tag := Name.lower tag, attrs := .empty, children := [],
                  void := Name.isVoid (Name.lower tag), inline := Name.isInline (Name.lower tag),
                  closed := !Name.isVoid (Name.lower tag) } := by
  rw [ofTag]
  split
  · rename_i h
    rw [Except.ok.injEq]
    exact ⟨fun he => ⟨h, he.symm⟩, fun he => he.2.symm⟩
  · rename_i h
    exact ⟨nofun, fun he => absurd he.1 h⟩

theorem bindAttr_eq_ok {element changed : Element} {key : String} {value : AttrValue}
    {previous : Option AttrValue} :
    element.bindAttr key value = .ok (previous, changed) ↔ Name.isKey key = true ∧
      previous = (element.attrs.insert key value).1 ∧
      changed = { element with attrs := (element.attrs.insert key value).2 } := by
  rw [bindAttr]
  split
  · rename_i h
    rw [Except.ok.injEq, Prod.mk.injEq]
    exact ⟨fun he => ⟨h, he.1.symm, he.2.symm⟩, fun he => ⟨he.2.1.symm, he.2.2.symm⟩⟩
  · rename_i h
    exact ⟨nofun, fun he => absurd he.1 h⟩

theorem compose_eq_ok {tag : String} {content : Content} {attrs : Attributes}
    {element : Element} :
    compose tag content attrs = .ok element ↔ ∃ fresh filled, ofTag tag = .ok fresh ∧
      fresh.fill content = .ok filled ∧ filled.bindAttrs attrs.entries = .ok element := by
  simp only [compose, bind_eq_ok]
  constructor
  · rintro ⟨fresh, ht, filled, hf, hb⟩
    exact ⟨fresh, filled, ht, hf, hb⟩
  · rintro ⟨fresh, filled, ht, hf, hb⟩
    exact ⟨fresh, ht, filled, hf, hb⟩

/-- The key under which an accessor name is kept. -/
def accessorKey (name : String) : Except MarkupError String :=
  if Name.isAccessorName name then .ok (Name.lower name) else .error (.unknownMember name)

def getAttr (element : Element) (name : String) : Except MarkupError (Option AttrValue) :=
  (accessorKey name).map element.attrs.get?

theorem getAttr_eq_ok {element : Element} {name : String} {answer : Option AttrValue} :
    element.getAttr name = .ok answer ↔ Name.isAccessorName name = true ∧
      answer = element.attrs.get? (Name.lower name) := by
  rw [getAttr, accessorKey]
  split
  · rename_i h
    simp only [map_eq_ok, Except.ok.injEq, exists_eq_left']
    exact ⟨fun he => ⟨h, he.symm⟩, fun he => he.2.symm⟩
  · rename_i h
    exact ⟨nofun, fun he => absurd he.1 h⟩

/-- Sets an attribute by accessor name, and answers the value it had. -/
def setAttr (element : Element) (name : String) (value : AttrValue) :
    Except MarkupError (Option AttrValue × Element) :=
  (accessorKey name).map fun key =>
    let (previous, attrs) := element.attrs.insert key value
    (previous, { element with attrs })

theorem setAttr_eq_ok {element changed : Element} {name : String} {value : AttrValue}
    {previous : Option AttrValue} :
    element.setAttr name value = .ok (previous, changed) ↔ Name.isAccessorName name = true ∧
      previous = (element.attrs.insert (Name.lower name) value).1 ∧
      changed = { element with attrs := (element.attrs.insert (Name.lower name) value).2 } := by
  rw [setAttr, accessorKey]
  split
  · rename_i h
    simp only [map_eq_ok, Except.ok.injEq, exists_eq_left', Prod.mk.injEq]
    exact ⟨fun he => ⟨h, he.1.symm, he.2.symm⟩, fun he => ⟨he.2.1.symm, he.2.2.symm⟩⟩
  · rename_i h
    exact ⟨nofun, fun he => absurd he.1 h⟩

/-- Unbinds a key as it stands, and answers the value it had. -/
def unbindAttr (element : Element) (key : String) : Option AttrValue × Element :=
  let (previous, attrs) := element.attrs.remove key
  (previous, { element with attrs })

def assignChildren (element : Element) (children : Children) : Element :=
  { element with children := children.toNodes }

/-- Lets the element run on in the line, whatever its tag. -/
def makeInline (element : Element) : Element := { element with inline := true }

/-- Lets the element have a closing tag, whatever its tag. -/
def makeClosed (element : Element) : Element := { element with closed := true }

/-- The children as markup, as they stand inside an element at the top. -/
def inner (element : Element) : Fragment :=
  (Layout.treeMarkup {} element.children 0 true).trust

/-- Makes an element, lets `customize` change it, and renders it. -/
def build (tag : String) (content : Content) (attrs : Attributes)
    (customize : Element → Except MarkupError Unit × Element) : Except MarkupError Fragment := do
  let element ← compose tag content attrs
  let (result, element) := customize element
  result
  return (Layout.elementMarkup {} element 0 false).trust

end HtmlDoc.Element
