import HtmlDoc.Proofs.Layout.Spacing
import HtmlDoc.Proofs.Tree.Elements

/-!
Running text: where layout adds nothing. Between inline elements nothing is written, and a block
element writes at least the end of its line. Main statement: a tree that does not start a line is
rendered to its pieces alone exactly if all its elements, at any depth, are inline.
-/

namespace HtmlDoc

theorem Element.join_pieces (element : Element) :
    String.join element.pieces = openingTag element.tag element.attrs ++
      String.join (Node.pieces element.children) ++
        closingTag element.tag (element.closed || !element.children.isEmpty) := by
  obtain ⟨tag, attrs, children, void, inline, closed⟩ := element
  rw [Element.pieces, String.join_cons, String.join_append, ← closingTag_eq, String.append_assoc]

namespace Layout

variable {layout : Layout}

/-- The indentation that stands at the start of a line. -/
def margin (layout : Layout) (depth : Nat) (fresh : Bool) : String :=
  if fresh then layout.indentation depth else ""

-- By induction on the tree: the children of an inline element do not start a line either.
mutual

theorem treeText_inline (depth : Nat) (nodes : List Node)
    (h : Node.Throughout (fun inner => inner.inline = true) nodes) :
    layout.treeText depth false nodes = String.join (Node.pieces nodes) := by
  cases nodes with
  | nil => rfl
  | cons node nodes =>
    cases node with
    | text fragment =>
      have hnodes := treeText_inline depth nodes (Node.throughout_text_cons.mp h)
      rw [treeText, hnodes, Node.pieces, String.join_cons]
      exact congrArg (· ++ _) String.empty_append
    | element child =>
      obtain ⟨hchild, hnodes⟩ := Node.throughout_element_cons.mp h
      rw [treeText, elementText_inline depth false child hchild, treeText_inline depth nodes hnodes,
        Node.pieces, String.join_append]
      exact congrArg (· ++ _) String.empty_append

theorem elementText_inline (depth : Nat) (fresh : Bool) (element : Element)
    (h : element.Throughout fun inner => inner.inline = true) :
    layout.elementText depth fresh element =
      layout.margin depth fresh ++ String.join element.pieces := by
  obtain ⟨hinline, hinner⟩ := (Element.throughout_iff element).mp h
  obtain ⟨tag, attrs, children, void, inline, closed⟩ := element
  cases hinline
  have hchildren := treeText_inline (depth + 1) children hinner
  have hlead : layout.lead depth fresh true = layout.margin depth fresh := rfl
  rw [elementText, if_pos rfl, hchildren, hlead, Element.join_pieces]
  simp only [String.append_assoc]

end

/-- How many elements of a list are blocks. -/
def blockCount (elements : List Element) : Nat :=
  elements.countP fun element => !element.inline

theorem blockCount_cons (element : Element) (elements : List Element) :
    blockCount (element :: elements) =
      blockCount elements + if element.inline then 0 else 1 := by
  rw [blockCount, List.countP_cons]
  cases element.inline <;> rfl

theorem blockCount_append (left right : List Element) :
    blockCount (left ++ right) = blockCount left + blockCount right :=
  List.countP_append

theorem blockCount_eq_zero {elements : List Element} :
    blockCount elements = 0 ↔ ∀ element ∈ elements, element.inline = true := by
  simp [blockCount, List.countP_eq_zero]

variable (layout)

theorem length_margin_le_lead (depth : Nat) (fresh inline : Bool) :
    (layout.margin depth fresh).length ≤ (layout.lead depth fresh inline).length := by
  cases fresh with
  | false => exact Nat.zero_le _
  | true => exact Nat.le_refl _

-- By induction on the tree: all pieces are written, and for each block at least one line end more.
mutual

theorem length_pieces_le_treeText (depth : Nat) (fresh : Bool) (nodes : List Node) :
    (String.join (Node.pieces nodes)).length + blockCount (Node.preorder nodes) ≤
      (layout.treeText depth fresh nodes).length := by
  cases nodes with
  | nil => exact Nat.le_refl 0
  | cons node nodes =>
    cases node with
    | text fragment =>
      have hnodes := length_pieces_le_treeText depth false nodes
      rw [Node.pieces, String.join_cons, Node.preorder, treeText]
      simp only [String.length_append]
      omega
    | element child =>
      have hchild := length_pieces_le_elementText depth fresh child
      have hnodes := length_pieces_le_treeText depth fresh nodes
      rw [Node.pieces, String.join_append, Node.preorder, blockCount_append, treeText]
      simp only [String.length_append]
      omega

theorem length_pieces_le_elementText (depth : Nat) (fresh : Bool) (element : Element) :
    (layout.margin depth fresh).length + (String.join element.pieces).length +
        blockCount element.preorder ≤ (layout.elementText depth fresh element).length := by
  obtain ⟨tag, attrs, children, void, inline, closed⟩ := element
  have hlead := length_margin_le_lead layout depth fresh inline
  have hline : "\n".length = 1 := rfl
  rw [Element.join_pieces, Element.preorder, blockCount_cons]
  simp only [elementText]
  split
  · have hchildren := length_pieces_le_treeText (depth + 1) false children
    simp only [String.length_append]
    omega
  split
  · rename_i hempty
    have hchildren := length_pieces_le_treeText (depth + 1) true children
    have hnone : (layout.treeText (depth + 1) true children).length = 0 := by
      rw [List.isEmpty_iff.mp hempty]
      rfl
    simp only [String.length_append]
    omega
  · have hchildren := length_pieces_le_treeText (depth + 1) true children
    simp only [String.length_append]
    omega

end

theorem treeText_eq_join_iff (depth : Nat) (nodes : List Node) :
    layout.treeText depth false nodes = String.join (Node.pieces nodes) ↔
      Node.Throughout (fun inner => inner.inline = true) nodes := by
  refine ⟨fun htext => ?_, treeText_inline depth nodes⟩
  have hlength := length_pieces_le_treeText layout depth false nodes
  rw [htext] at hlength
  exact blockCount_eq_zero.mp (by omega)

theorem elementText_eq_join_iff (depth : Nat) (fresh : Bool) (element : Element) :
    layout.elementText depth fresh element =
        layout.margin depth fresh ++ String.join element.pieces ↔
      element.Throughout fun inner => inner.inline = true := by
  refine ⟨fun htext => ?_, elementText_inline depth fresh element⟩
  have hlength := length_pieces_le_elementText layout depth fresh element
  rw [htext, String.length_append] at hlength
  exact blockCount_eq_zero.mp (by omega)

/-- Where nothing is added to the pieces of a document. A tree that does not start a line is
rendered to its pieces in their order and to nothing else, whatever the depth and the indent,
exactly if all elements in it are inline. An element is rendered so, behind the indentation of its
depth if it starts a line, exactly if it is inline with all elements in it. -/
theorem markup_eq_pieces_iff (layout : Layout) (depth : Nat) :
    (∀ nodes : List Node,
      layout.treeMarkup nodes depth false = .markup (String.join (Node.pieces nodes)) ↔
        ∀ inner ∈ Node.preorder nodes, inner.inline = true) ∧
    ∀ (element : Element) (fresh : Bool),
      layout.elementMarkup element depth fresh =
          .markup (String.join (if fresh then List.replicate depth layout.indent else []) ++
            String.join element.pieces) ↔
        ∀ inner ∈ element.preorder, inner.inline = true := by
  have hmarkup {left right : String} : Fragment.markup left = .markup right ↔ left = right :=
    ⟨congrArg Fragment.text, congrArg Fragment.markup⟩
  constructor
  · intro nodes
    rw [treeMarkup_eq, hmarkup]
    exact treeText_eq_join_iff layout depth nodes
  · intro element fresh
    have hmargin : String.join (if fresh then List.replicate depth layout.indent else []) =
        layout.margin depth fresh := by
      cases fresh <;> rfl
    rw [elementMarkup_eq, hmarkup, hmargin]
    exact elementText_eq_join_iff layout depth fresh element

end Layout

end HtmlDoc
