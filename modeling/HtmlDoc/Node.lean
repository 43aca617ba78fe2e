import HtmlDoc.Attributes

/-!
Nodes: the items of a document, texts and elements with nodes of their own. A tree is a list of
nodes in the order in which they are written.
-/

namespace HtmlDoc

mutual

/-- One item of a document. -/
inductive Node where
  | text (fragment : Fragment)
  | element (element : Element)

/-- A tag with attributes and children. `void` is what the tag says about content, `inline` says that
the element runs on in the line, `closed` that it gets a closing tag even without children. -/
structure Element where
  tag : String
  attrs : Attributes
  children : List Node
  void : Bool
  inline : Bool
  closed : Bool

end

instance : Inhabited Node := ⟨.text .empty⟩

mutual

/-- Equal up to the trust of the texts inside. -/
def Element.same : Element → Element → Bool
  | ⟨tag, attrs, children, void, inline, closed⟩,
    ⟨tag', attrs', children', void', inline', closed'⟩ =>
    tag == tag' && attrs == attrs' && void == void' && inline == inline' && closed == closed' &&
      Node.sameList children children'

/-- Equal one by one, up to the trust of the texts inside. -/
def Node.sameList : List Node → List Node → Bool
  | [], [] => true
  | .text a :: nodes, .text b :: nodes' => a == b && Node.sameList nodes nodes'
  | .element a :: nodes, .element b :: nodes' => a.same b && Node.sameList nodes nodes'
  | _, _ => false

end

instance : BEq Element := ⟨Element.same⟩

instance : BEq Node := ⟨fun a b => Node.sameList [a] [b]⟩

/-- The comment that says `text`. A text of several lines stands between the marks on lines of its
own. -/
def Node.comment (text : String) : Node :=
  .text (.markup
    (if text.toList.contains '\n' then "<!--\n" ++ text ++ "\n-->\n"
     else "<!-- " ++ text ++ " -->\n"))

end HtmlDoc
