import HtmlDoc.Name
import HtmlDoc.Node

/-!
Layout: documents as text. A block element starts on a fresh line, indented by its depth, and ends
its line; its children come one level deeper. An inline element runs on where it stands. Of the
texts of a tree that starts on a line of its own only the first is indented.

Everything is written at the end of a trusted fragment, which escapes the plain texts on their way.
The only thing that is asked of what has been written before is whether it ends a line.
-/

namespace HtmlDoc

/-- How documents are laid out: the text that indents by one level. -/
structure Layout where
  indent : String := "  "
deriving DecidableEq

instance : Inhabited Layout := ⟨{}⟩

def Layout.indentation (layout : Layout) (depth : Nat) : String :=
  String.join (List.replicate depth layout.indent)

/-- Writes the text of a value. A flag has none. -/
def appendValue (out : Fragment) : AttrValue → Fragment
  | .text fragment => out.push fragment
  | _ => out

/-- Writes a key with its value. Nothing is written for a value that is omitted, and the bare key for
a blank one, unless values under the key are always quoted. -/
def appendAttr (out : Fragment) (key : String) (value : AttrValue) : Fragment :=
  if value.isOmitted then out
  else if value.isBlank && !Name.isAlwaysQuoted key then out.append (" " ++ key)
  else (appendValue (out.append (" " ++ key ++ "=\"")) value).append "\""

/-- Writes attributes in their order. -/
def appendAttrs (out : Fragment) (attrs : Attributes) : Fragment :=
  attrs.entries.foldl (fun out entry => appendAttr out entry.1 entry.2) out

/-- The closing tag of an element that has one. -/
def closingTag (tag : String) (closed : Bool) : String :=
  if closed then "</" ++ tag ++ ">" else ""

namespace Layout

/-- What comes before the opening tag of an element. A block element that does not stand at the
start of a line starts one, and whatever stands at the start of a line is indented. -/
def lead (layout : Layout) (depth : Nat) (fresh inline : Bool) : String :=
  if fresh then layout.indentation depth
  else if inline then ""
  else "\n" ++ layout.indentation depth

/-- Writes the opening tag of an element and what comes before it. -/
def appendOpening (layout : Layout) (depth : Nat) (fresh inline : Bool) (out : Fragment) (tag : String)
    (attrs : Attributes) : Fragment :=
  (appendAttrs (out.append (layout.lead depth fresh inline ++ "<" ++ tag)) attrs).append ">"

mutual

/-- Writes a tree. `fresh` says that the output stands at the start of a line, where the first text
has to be indented; elements look at it too, but do not use it up. -/
def appendTree (layout : Layout) (depth : Nat) (fresh : Bool) (out : Fragment) :
    List Node → Fragment
  | [] => out
  | .text fragment :: nodes =>
    let out := if fresh then out.append (layout.indentation depth) else out
    layout.appendTree depth false (out.push fragment) nodes
  -- What the element has written does not count: the first text after it is still indented.
  | .element element :: nodes =>
    layout.appendTree depth fresh (layout.appendElement depth fresh out element) nodes

/-- Writes an element. Inside a block element its children start on a line of their own, and the
closing tag follows on the next. -/
def appendElement (layout : Layout) (depth : Nat) (fresh : Bool) (out : Fragment) :
    Element → Fragment
  | ⟨tag, attrs, children, _, inline, closed⟩ =>
    let out := layout.appendOpening depth fresh inline out tag attrs
    let closing := closingTag tag (closed || !children.isEmpty)
    if inline then
      (layout.appendTree (depth + 1) false out children).append closing
    else if children.isEmpty then
      out.append (closing ++ "\n")
    -- The last child may have ended the line itself.
    else
      let inner := layout.appendTree (depth + 1) true (out.append "\n") children
      inner.endLine.append (layout.indentation depth ++ closing ++ "\n")

end

def treeMarkup (layout : Layout) (nodes : List Node) (depth : Nat) (fresh : Bool) : Fragment :=
  layout.appendTree depth fresh .empty nodes

def elementMarkup (layout : Layout) (element : Element) (depth : Nat) (fresh : Bool) : Fragment :=
  layout.appendElement depth fresh .empty element

end Layout

/-- The text of a tree that stands for itself. -/
def Node.listText (nodes : List Node) : String :=
  (Layout.treeMarkup {} nodes 0 true).text

/-- The text of an element that stands for itself. -/
def Element.text (element : Element) : String :=
  (Layout.elementMarkup {} element 0 false).text

/-- As the value of an attribute an element stands for its text, which is not trusted there. -/
def AttrValue.ofElement (element : Element) : AttrValue :=
  .text (.plain element.text)

end HtmlDoc
