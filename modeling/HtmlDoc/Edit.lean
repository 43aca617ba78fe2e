import HtmlDoc.Member

/-!
Edits: the operations on trees and elements as data, so that whole histories of them can be run and
reasoned about. Running an edit answers something or fails, and leaves the tree or element that is
there afterwards. An edit that fails leaves it as it was.
-/

namespace HtmlDoc

/-- What an operation answers. -/
inductive Reply where
  | done
  | truth (value : Bool)
  | value (value : Option AttrValue)
  | nodes (nodes : List Node)
  | fragment (fragment : Fragment)
  | element (element : Element)

inductive TreeEdit where
  | push (node : Node)
  | extend (nodes : List Node)
  | replace (nodes : List Node)
  /-- Makes the tree the content of a new element, which becomes its only node. -/
  | wrap (tag : String) (attrs : Attributes)
  | isEmpty
  | items
  | render (layout : Layout) (depth : Nat) (fresh : Bool)

def TreeEdit.run (edit : TreeEdit) (tree : List Node) : Except MarkupError Reply × List Node :=
  match edit with
  | .push node => (.ok .done, tree ++ [node])
  | .extend nodes => (.ok .done, tree ++ nodes)
  | .replace nodes => (.ok .done, nodes)
  | .wrap tag attrs =>
    match Element.compose tag (.tree tree) attrs with
    | .ok element => (.ok .done, [.element element])
    | .error error => (.error error, tree)
  | .isEmpty => (.ok (.truth tree.isEmpty), tree)
  | .items => (.ok (.nodes tree), tree)
  | .render layout depth fresh => (.ok (.fragment (layout.treeMarkup tree depth fresh)), tree)

inductive ElementEdit where
  | getAttr (name : String)
  | setAttr (name : String) (value : AttrValue)
  | bindAttr (key : String) (value : AttrValue)
  | unbindAttr (key : String)
  | assignChildren (children : Children)
  | makeInline
  | makeClosed
  | children (edit : TreeEdit)
  | inner
  | render (layout : Layout) (depth : Nat) (fresh : Bool)
  | callMember (member : String) (args : List Arg) (block : Bool)
  | fail (error : MarkupError)
  | state

/-- Takes the changed element of an operation that answers a value, and the old one if it failed. -/
def Element.settle (element : Element) :
    Except MarkupError (Option AttrValue × Element) → Except MarkupError Reply × Element
  | .ok (value, element) => (.ok (.value value), element)
  | .error error => (.error error, element)

def ElementEdit.run (edit : ElementEdit) (element : Element) :
    Except MarkupError Reply × Element :=
  match edit with
  | .getAttr name => ((element.getAttr name).map .value, element)
  | .setAttr name value => element.settle (element.setAttr name value)
  | .bindAttr key value => element.settle (element.bindAttr key value)
  | .unbindAttr key => element.settle (.ok (element.unbindAttr key))
  | .assignChildren given => (.ok .done, element.assignChildren given)
  | .makeInline => (.ok .done, element.makeInline)
  | .makeClosed => (.ok .done, element.makeClosed)
  | .children edit =>
    let (reply, after) := edit.run element.children
    (reply, { element with children := after })
  | .inner => (.ok (.fragment element.inner), element)
  | .render layout depth fresh =>
    (.ok (.fragment (layout.elementMarkup element depth fresh)), element)
  | .callMember member args block =>
    let (result, element) := element.callMember member args block
    (result.map .value, element)
  | .fail error => (.error error, element)
  | .state => (.ok (.element element), element)

/-- Runs operations on an element until one fails. -/
def ElementEdit.runAll : List ElementEdit → Element → Except MarkupError Unit × Element
  | [], element => (.ok (), element)
  | edit :: edits, element =>
    match edit.run element with
    | (.ok _, element) => runAll edits element
    | (.error error, element) => (.error error, element)

end HtmlDoc
