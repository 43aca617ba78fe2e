import HtmlDoc.MarkupError
import HtmlDoc.Node

/-!
What elements are given: the content they start with, children assigned to them later, and the
loosely typed arguments of calls by name.
-/

namespace HtmlDoc

/-- What a new element holds. Attributes can come in place of content. -/
inductive Content where
  | empty
  | text (fragment : Fragment)
  | element (element : Element)
  | tree (nodes : List Node)
  | attrs (attrs : Attributes)

def Content.same : Content → Content → Bool
  | .empty, .empty => true
  | .text a, .text b => a == b
  | .element a, .element b => a == b
  | .tree a, .tree b => a == b
  | .attrs a, .attrs b => a == b
  | _, _ => false

instance : BEq Content := ⟨Content.same⟩

/-- What is assigned as the children of an element: a text, a tree, or loose nodes. -/
inductive Children where
  | text (fragment : Fragment)
  | tree (nodes : List Node)
  | nodes (nodes : List Node)

/-- Equal up to trust. A tree is not the list of its nodes. -/
def Children.same : Children → Children → Bool
  | .text a, .text b => a == b
  | .tree a, .tree b => a == b
  | .nodes a, .nodes b => a == b
  | _, _ => false

instance : BEq Children := ⟨Children.same⟩

/-- The nodes that the children become. A text is escaped once. -/
def Children.toNodes : Children → List Node
  | .text fragment => [.text fragment.escapeOnce]
  | .tree items | .nodes items => items

/-- An argument of a call by name. -/
inductive Arg where
  | value (value : AttrValue)
  | element (element : Element)
  | tree (nodes : List Node)
  | nodes (nodes : List Node)
  | attrs (attrs : Attributes)

/-- Equal up to trust. A tree is not the list of its nodes. -/
def Arg.same : Arg → Arg → Bool
  | .value a, .value b => a == b
  | .element a, .element b => a == b
  | .tree a, .tree b => a == b
  | .nodes a, .nodes b => a == b
  | .attrs a, .attrs b => a == b
  | _, _ => false

instance : BEq Arg := ⟨Arg.same⟩

def Arg.kind : Arg → ArgKind
  | .value .nil => .nil
  | .value (.flag _) => .boolean
  | .value (.text _) => .text
  | .element _ => .element
  | .tree _ => .nodeTree
  | .nodes _ => .nodeList
  | .attrs _ => .attributeMap

/-- The content that an argument stands for. Flags stand for none. -/
def Arg.toContent : Arg → Content
  | .value (.text fragment) => .text fragment
  | .value .nil | .value (.flag _) => .empty
  | .element child => .element child
  | .tree items | .nodes items => .tree items
  | .attrs map => .attrs map

/-- The children that an argument stands for, if it can stand for any. -/
def Arg.toChildren? : Arg → Option Children
  | .value (.text fragment) => some (.text fragment)
  | .tree items => some (.tree items)
  | .nodes items => some (.nodes items)
  | _ => none

end HtmlDoc
