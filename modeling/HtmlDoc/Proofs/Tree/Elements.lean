import HtmlDoc.Node

/-!
The elements of a tree: those at its top, and all of them in the order of their opening tags. A
property holds throughout a tree when each of its elements has it.
-/

namespace HtmlDoc

/-- The element that a node is, if it is one. -/
def Node.element? : Node → Option Element
  | .text _ => none
  | .element child => some child

/-- The elements at the top of a tree. -/
def Node.elements (nodes : List Node) : List Element := nodes.filterMap Node.element?

mutual

/-- An element and the elements inside it, in the order of their opening tags. -/
def Element.preorder : Element → List Element
  | ⟨tag, attrs, children, void, inline, closed⟩ =>
    ⟨tag, attrs, children, void, inline, closed⟩ :: Node.preorder children

/-- The elements of a tree, in the order of their opening tags. -/
def Node.preorder : List Node → List Element
  | [] => []
  | .text _ :: nodes => Node.preorder nodes
  | .element child :: nodes => child.preorder ++ Node.preorder nodes

end

theorem Element.preorder_eq (element : Element) :
    element.preorder = element :: Node.preorder element.children := by
  obtain ⟨tag, attrs, children, void, inline, closed⟩ := element
  rw [Element.preorder]

theorem Node.mem_preorder (inner : Element) (nodes : List Node) :
    inner ∈ Node.preorder nodes ↔ ∃ element ∈ Node.elements nodes, inner ∈ element.preorder := by
  induction nodes with
  | nil => simp [Node.preorder, Node.elements]
  | cons node nodes ih =>
    cases node with
    | text fragment => simpa [Node.preorder, Node.elements, Node.element?] using ih
    | element element =>
      simp only [Node.elements] at ih
      simp [Node.preorder, Node.elements, Node.element?, ih]

theorem Node.elements_append (left right : List Node) :
    Node.elements (left ++ right) = Node.elements left ++ Node.elements right :=
  List.filterMap_append

/-- Every element of a tree, at the top or inside, has the property. -/
def Node.Throughout (P : Element → Prop) (nodes : List Node) : Prop :=
  ∀ inner ∈ Node.preorder nodes, P inner

/-- The element and every element inside it have the property. -/
def Element.Throughout (P : Element → Prop) (element : Element) : Prop :=
  ∀ inner ∈ element.preorder, P inner

variable {P : Element → Prop}

theorem Element.throughout_iff (element : Element) :
    element.Throughout P ↔ P element ∧ Node.Throughout P element.children := by
  rw [Element.Throughout, Element.preorder_eq, List.forall_mem_cons]
  exact Iff.rfl

theorem Node.throughout_iff (nodes : List Node) :
    Node.Throughout P nodes ↔ ∀ element ∈ Node.elements nodes, element.Throughout P := by
  constructor
  · intro h element he inner hi
    exact h inner ((Node.mem_preorder inner nodes).mpr ⟨element, he, hi⟩)
  · intro h inner hi
    obtain ⟨element, he, hi⟩ := (Node.mem_preorder inner nodes).mp hi
    exact h element he inner hi

theorem Node.throughout_append {left right : List Node} :
    Node.Throughout P (left ++ right) ↔ Node.Throughout P left ∧ Node.Throughout P right := by
  simp only [Node.throughout_iff, Node.elements_append, List.forall_mem_append]

theorem Node.throughout_nil : Node.Throughout P [] :=
  fun _ hi => absurd hi List.not_mem_nil

theorem Node.throughout_text (fragment : Fragment) : Node.Throughout P [.text fragment] :=
  fun _ hi => absurd hi List.not_mem_nil

theorem Node.throughout_element (element : Element) :
    Node.Throughout P [.element element] ↔ element.Throughout P := by
  rw [Node.throughout_iff]
  exact List.forall_mem_singleton

theorem Node.throughout_text_cons {fragment : Fragment} {nodes : List Node} :
    Node.Throughout P (.text fragment :: nodes) ↔ Node.Throughout P nodes := by
  rw [Node.Throughout, Node.preorder]
  exact Iff.rfl

theorem Node.throughout_element_cons {element : Element} {nodes : List Node} :
    Node.Throughout P (.element element :: nodes) ↔
      element.Throughout P ∧ Node.Throughout P nodes := by
  rw [Node.Throughout, Node.preorder, List.forall_mem_append]
  exact Iff.rfl

end HtmlDoc
