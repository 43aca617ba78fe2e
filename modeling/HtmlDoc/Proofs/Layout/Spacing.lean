import HtmlDoc.Proofs.Layout.Composition

/-!
Layout as spacing. The content of a tree is a list of pieces: opening tags with their attributes,
texts as markup, and closing tags where there are any. Main statement: what is rendered is these
pieces in their order and as they are, with nothing around them but line ends and whole indents.
-/

namespace HtmlDoc

mutual

/-- The pieces of an element in the order they are written. -/
def Element.pieces : Element → List String
  | ⟨tag, attrs, children, _, _, closed⟩ =>
    openingTag tag attrs ::
      (Node.pieces children ++ (closingTags tag (closed || !children.isEmpty)).map bracketed)

/-- The pieces of a tree in the order they are written. -/
def Node.pieces : List Node → List String
  | [] => []
  | .text fragment :: nodes => fragment.asMarkup :: Node.pieces nodes
  | .element child :: nodes => child.pieces ++ Node.pieces nodes

end

/-- A text is made of these pieces in this order, and of line ends and whole indents before, between
and after them. -/
inductive Spaced (indent : String) : List String → String → Prop
  | done : Spaced indent [] ""
  | piece {pieces : List String} {rest : String} (piece : String) :
      Spaced indent pieces rest → Spaced indent (piece :: pieces) (piece ++ rest)
  | line {pieces : List String} {rest : String} :
      Spaced indent pieces rest → Spaced indent pieces ("\n" ++ rest)
  | unit {pieces : List String} {rest : String} :
      Spaced indent pieces rest → Spaced indent pieces (indent ++ rest)

namespace Spaced

variable {indent left right gap : String} {first second : List String}

theorem append (hl : Spaced indent first left) (hr : Spaced indent second right) :
    Spaced indent (first ++ second) (left ++ right) := by
  induction hl with
  | done =>
    rw [String.empty_append]
    exact hr
  | piece piece _ ih =>
    rw [String.append_assoc]
    exact .piece piece ih
  | line _ ih =>
    rw [String.append_assoc]
    exact .line ih
  | unit _ ih =>
    rw [String.append_assoc]
    exact .unit ih

theorem append_gap (h : Spaced indent first left) (hg : Spaced indent [] gap) :
    Spaced indent first (left ++ gap) := by
  have happend := h.append hg
  rw [List.append_nil] at happend
  exact happend

theorem of_piece (piece : String) : Spaced indent [piece] piece := by
  have h : Spaced indent [piece] (piece ++ "") := .piece piece .done
  rw [String.append_empty] at h
  exact h

theorem of_pieces (pieces : List String) : Spaced indent pieces (String.join pieces) := by
  induction pieces with
  | nil => exact .done
  | cons piece pieces ih =>
    rw [String.join_cons]
    exact .piece piece ih

theorem of_line : Spaced indent [] "\n" := .line .done

end Spaced

namespace Layout

variable {layout : Layout}

theorem spaced_indentation (depth : Nat) : Spaced layout.indent [] (layout.indentation depth) := by
  unfold indentation
  induction depth with
  | zero => exact .done
  | succ depth ih =>
    rw [List.replicate_succ, String.join_cons]
    exact .unit ih

theorem spaced_lead (depth : Nat) (fresh inline : Bool) :
    Spaced layout.indent [] (layout.lead depth fresh inline) := by
  unfold lead
  split
  · exact spaced_indentation depth
  split
  · exact .done
  · exact .line (spaced_indentation depth)

theorem spaced_lineEnd (text : String) : Spaced layout.indent [] (lineEnd text) := by
  unfold lineEnd
  split
  · exact .done
  · exact .of_line

-- By induction on the tree: the text of a part is the texts of its own parts and spacing between
-- them, in the order of the pieces, so `append` and `append_gap` carry the invariant.
mutual

theorem spaced_treeText (depth : Nat) (fresh : Bool) (nodes : List Node) :
    Spaced layout.indent (Node.pieces nodes) (layout.treeText depth fresh nodes) := by
  cases nodes with
  | nil => exact .done
  | cons node nodes =>
    cases node with
    | text fragment =>
      have hstart : Spaced layout.indent [] (if fresh then layout.indentation depth else "") := by
        split
        · exact spaced_indentation depth
        · exact .done
      have hrest := spaced_treeText depth false nodes
      exact (hstart.append (.of_piece fragment.asMarkup)).append hrest
    | element child =>
      exact (spaced_elementText depth fresh child).append (spaced_treeText depth fresh nodes)

theorem spaced_elementText (depth : Nat) (fresh : Bool) (element : Element) :
    Spaced layout.indent element.pieces (layout.elementText depth fresh element) := by
  obtain ⟨tag, attrs, children, void, inline, closed⟩ := element
  have hopen : Spaced layout.indent [openingTag tag attrs]
      (layout.lead depth fresh inline ++ openingTag tag attrs) :=
    (spaced_lead depth fresh inline).append (.of_piece _)
  have hclose : Spaced layout.indent
      ((closingTags tag (closed || !children.isEmpty)).map bracketed)
      (closingTag tag (closed || !children.isEmpty)) := by
    rw [closingTag_eq]
    exact .of_pieces _
  simp only [elementText, Element.pieces]
  split
  · exact (hopen.append (spaced_treeText (depth + 1) false children)).append hclose
  split
  · -- A block without children has nothing between its tags.
    rename_i hempty
    rw [List.isEmpty_iff.mp hempty] at hclose ⊢
    exact (hopen.append hclose).append_gap .of_line
  · have hinner : Spaced layout.indent (Node.pieces children)
        (layout.treeText (depth + 1) true children) := spaced_treeText (depth + 1) true children
    have hend : Spaced layout.indent [] (lineEnd (layout.treeText (depth + 1) true children)) :=
      spaced_lineEnd _
    have hlines := ((hopen.append_gap .of_line).append hinner).append_gap hend
    exact ((hlines.append_gap (spaced_indentation depth)).append hclose).append_gap .of_line

end

/-- Layout adds spacing and nothing else: rendered at any depth, in either mode and with any indent,
a tree or an element is its pieces in order and unchanged, with line ends and whole indents around
them, and the result is markup. -/
theorem spaced_markup (layout : Layout) (depth : Nat) (fresh : Bool) :
    (∀ nodes : List Node, (layout.treeMarkup nodes depth fresh).trusted = true ∧
      Spaced layout.indent (Node.pieces nodes) (layout.treeMarkup nodes depth fresh).text) ∧
    ∀ element : Element, (layout.elementMarkup element depth fresh).trusted = true ∧
      Spaced layout.indent element.pieces (layout.elementMarkup element depth fresh).text := by
  constructor
  · intro nodes
    rw [treeMarkup_eq]
    exact ⟨rfl, spaced_treeText depth fresh nodes⟩
  · intro element
    rw [elementMarkup_eq]
    exact ⟨rfl, spaced_elementText depth fresh element⟩

end Layout

end HtmlDoc
