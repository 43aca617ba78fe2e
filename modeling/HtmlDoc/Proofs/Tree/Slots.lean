import HtmlDoc.Proofs.Tree.Elements

/-!
Slots: the places in a tree where an element can stand, each given by the tree around it. Main
statement: the elements of a tree are what its slots are filled with.
-/

namespace HtmlDoc

/-- A place for an element in a tree: between nodes at the top, or inside an element at the top, where
a slot of its own takes the place of the children. -/
inductive Slot where
  | top (left right : List Node)
  | inside (left : List Node) (parent : Element) (inner : Slot) (right : List Node)

namespace Slot

/-- The tree with an element in the slot. -/
def fill (element : Element) : Slot → List Node
  | top left right => left ++ .element element :: right
  | inside left parent inner right =>
    left ++ .element { parent with children := inner.fill element } :: right

/-- How many elements are around the slot. -/
def level : Slot → Nat
  | top _ _ => 0
  | inside _ _ inner _ => inner.level + 1

/-- The nodes before the slot on its own level. -/
def siblings : Slot → List Node
  | top left _ => left
  | inside _ _ inner _ => inner.siblings

/-- The slot with a node more at the start of the tree. -/
def behind (node : Node) : Slot → Slot
  | top left right => top (node :: left) right
  | inside left parent inner right => inside (node :: left) parent inner right

theorem fill_behind (element : Element) (node : Node) (slot : Slot) :
    (slot.behind node).fill element = node :: slot.fill element := by
  cases slot <;> rfl

theorem fill_ne_nil (element : Element) (slot : Slot) : slot.fill element ≠ [] := by
  cases slot <;> exact List.append_ne_nil_of_right_ne_nil _ (List.cons_ne_nil _ _)

end Slot

variable {inner : Element}

-- By induction on the tree: an element further on stands behind the first node, and one inside the
-- first element stands in a slot of its children.
mutual

theorem Node.exists_slot {nodes : List Node} (h : inner ∈ Node.preorder nodes) :
    ∃ slot : Slot, slot.fill inner = nodes := by
  cases nodes with
  | nil => exact absurd h List.not_mem_nil
  | cons node nodes =>
    have hbehind (h : inner ∈ Node.preorder nodes) :
        ∃ slot : Slot, slot.fill inner = node :: nodes := by
      obtain ⟨slot, hslot⟩ := Node.exists_slot h
      refine ⟨slot.behind node, ?_⟩
      rw [Slot.fill_behind, hslot]
    cases node with
    | text fragment => exact hbehind h
    | element child =>
      rw [Node.preorder, List.mem_append] at h
      rcases h with h | h
      · rcases Element.eq_or_exists_slot h with rfl | ⟨slot, hslot⟩
        · exact ⟨.top [] nodes, rfl⟩
        · refine ⟨.inside [] child slot nodes, ?_⟩
          rw [Slot.fill, hslot]
          cases child with
          | mk tag attrs children inline closed => rfl
      · exact hbehind h

theorem Element.eq_or_exists_slot {element : Element} (h : inner ∈ element.preorder) :
    inner = element ∨ ∃ slot : Slot, slot.fill inner = element.children := by
  obtain ⟨tag, attrs, children, void, inline, closed⟩ := element
  rw [Element.preorder, List.mem_cons] at h
  rcases h with h | h
  · exact Or.inl h
  · exact Or.inr (Node.exists_slot h)

end

theorem Node.mem_preorder_fill (element : Element) (slot : Slot) :
    element ∈ Node.preorder (slot.fill element) := by
  have hmem (outer : Element) (left right : List Node) (h : element ∈ outer.preorder) :
      element ∈ Node.preorder (left ++ .element outer :: right) := by
    rw [Node.mem_preorder]
    refine ⟨outer, ?_, h⟩
    rw [Node.elements_append, List.mem_append]
    exact Or.inr List.mem_cons_self
  induction slot with
  | top left right =>
    apply hmem
    rw [Element.preorder_eq]
    exact List.mem_cons_self
  | inside left parent slot right ih =>
    apply hmem
    rw [Element.preorder_eq]
    exact List.mem_cons_of_mem _ ih

/-- The elements of a tree, at the top or inside, are those that fill one of its slots. -/
theorem Node.mem_preorder_iff_exists_slot {nodes : List Node} :
    inner ∈ Node.preorder nodes ↔ ∃ slot : Slot, slot.fill inner = nodes := by
  constructor
  · exact Node.exists_slot
  · rintro ⟨slot, rfl⟩
    exact Node.mem_preorder_fill inner slot

end HtmlDoc
