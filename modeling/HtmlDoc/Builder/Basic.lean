import HtmlDoc.Builder.TagCall

/-!
Builders: a tree that grows at its open end. While elements are open, nodes go into the innermost of
them. An element is opened for the time of a block; when the block is left, by whatever way, its
element is closed, and with it all that the block left open inside.
-/

namespace HtmlDoc

/-- The nodes at the top, and the elements that are open, innermost first. -/
structure Builder where
  root : List Node
  opened : List Element
  layout : Layout

/-- The place of an open element: how many elements were open when it had just been opened. -/
structure Scope where
  depth : Nat

namespace Builder

def empty (layout : Layout) : Builder := ⟨[], [], layout⟩

instance : Inhabited Builder := ⟨empty {}⟩

def depth (builder : Builder) : Nat := builder.opened.length

def size (builder : Builder) : Nat := builder.root.length

def isEmpty (builder : Builder) : Bool := builder.root.isEmpty

/-- Appends a node to the innermost open element, or at the top. -/
def push (builder : Builder) (node : Node) : Builder :=
  match builder.opened with
  | [] => { builder with root := builder.root ++ [node] }
  | parent :: outer =>
    { builder with opened := { parent with children := parent.children ++ [node] } :: outer }

def add (builder : Builder) (call : TagCall) : Except MarkupError Unit × Builder :=
  match call.element with
  | .ok element => (.ok (), builder.push (.element element))
  | .error error => (.error error, builder)

/-- Closes the innermost open element: it goes to the end of what it was opened in. -/
def close (builder : Builder) : Builder :=
  match builder.opened with
  | [] => builder
  | element :: outer => { builder with opened := outer }.push (.element element)

/-- Closes elements while `depth` or more of them are open, `limit` at most. -/
def closeAtMost (depth : Nat) : Nat → Builder → Builder
  | 0, builder => builder
  | limit + 1, builder =>
    if depth ≤ builder.depth then closeAtMost depth limit builder.close else builder

/-- Closes elements while `depth` or more of them are open. -/
def closeTo (depth : Nat) (builder : Builder) : Builder :=
  -- A round closes one element, so there are no more rounds than open elements.
  closeAtMost depth builder.depth builder

/-- Opens an element, runs a block in its scope, and closes the scope. The block answers what it
likes, its own failure for one. -/
def within {ρ : Type} (builder : Builder) (element : Element)
    (block : Scope → Builder → ρ × Builder) : ρ × Builder :=
  let inside := { builder with opened := element :: builder.opened }
  let scope : Scope := ⟨inside.depth⟩
  -- The block may have failed; its element is closed all the same.
  let (result, after) := block scope inside
  (result, after.closeTo scope.depth)

/-- Opens the element that a call asks for and runs a block in it. Where there is no such element
the block is not run. -/
def addWith {ρ : Type} (builder : Builder) (call : TagCall)
    (block : Scope → Builder → ρ × Builder) : Except MarkupError ρ × Builder :=
  match call.element with
  | .ok element =>
    let (result, after) := builder.within element block
    (.ok result, after)
  | .error error => (.error error, builder)

/-- The top as markup. What is still open is not in it. -/
def render (builder : Builder) : Fragment :=
  (builder.layout.treeMarkup builder.root 0 true).trust

def build (layout : Layout) (fill : Builder → Except MarkupError Unit × Builder) :
    Except MarkupError Fragment :=
  let (result, builder) := fill (empty layout)
  result.map fun _ => builder.render

end Builder

namespace Scope

/-- The element that the scope keeps open. -/
def element? (scope : Scope) (builder : Builder) : Option Element :=
  builder.opened.reverse[scope.depth - 1]?

/-- Changes the element that the scope keeps open. -/
def update {ρ : Type} (scope : Scope) (builder : Builder) (change : Element → ρ × Element) :
    Option ρ × Builder :=
  match scope.element? builder with
  | none => (none, builder)
  | some element =>
    let (result, element) := change element
    (some result,
      { builder with opened := (builder.opened.reverse.set (scope.depth - 1) element).reverse })

end Scope

end HtmlDoc
