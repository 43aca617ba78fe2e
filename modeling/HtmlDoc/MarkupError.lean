/-!
What can go wrong while a document is put together, and the text that says so.
-/

namespace HtmlDoc

/-- The kinds of argument a call by name can be given. -/
inductive ArgKind where
  | nil
  | boolean
  | text
  | element
  | nodeTree
  | nodeList
  | attributeMap
deriving DecidableEq

def ArgKind.name : ArgKind → String
  | .nil => "nil"
  | .boolean => "boolean"
  | .text => "text"
  | .element => "element"
  | .nodeTree => "node tree"
  | .nodeList => "node list"
  | .attributeMap => "attribute map"

/-- What a call by name expects of an argument. -/
inductive Expected where
  | attributeMap
  | attributeValue
  | oneValue
deriving DecidableEq

def Expected.name : Expected → String
  | .attributeMap => "attribute map"
  | .attributeValue => "attribute value"
  | .oneValue => "one value"

/-- Why a call failed. -/
inductive MarkupError where
  /-- The children of `tag` were to be something that cannot be children. -/
  | invalidChildren (tag : String) (found : ArgKind)
  /-- A block was given where an attribute is read. -/
  | blockOnAccessor (tag member : String)
  /-- The name of no tag, key or member. -/
  | unknownMember (member : String)
  /-- More arguments than the member takes. -/
  | tooManyArguments (member : String) (given max : Nat)
  /-- An argument of the wrong kind, or none at all. -/
  | invalidArgument (member : String) (expected : Expected) (found : Option ArgKind)
  /-- The block itself gave up. -/
  | callback (reason : String)
deriving DecidableEq

def MarkupError.message : MarkupError → String
  | .invalidChildren tag found =>
    "cannot assign " ++ found.name ++ " as the children of <" ++ tag ++ ">"
  | .blockOnAccessor tag member =>
    "<" ++ tag ++ ">." ++ member ++ " is an attribute accessor and takes no block, " ++
      "add content to the children of <" ++ tag ++ "> instead"
  | .unknownMember member => "no such member: " ++ member
  | .tooManyArguments member given max =>
    member ++ " takes at most " ++ toString max ++ " arguments, " ++ toString given ++ " given"
  | .invalidArgument member expected found =>
    "invalid argument for " ++ member ++ ": expected " ++ expected.name ++ ", found " ++
      found.elim "nothing" ArgKind.name
  | .callback reason => "callback failed: " ++ reason

end HtmlDoc
