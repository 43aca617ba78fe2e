import HtmlDoc.Element

/-!
Tag calls: the ways to ask a builder for an element. All of them come down to one construction from
a tag, content and attributes; they differ in what they check before it.
-/

namespace HtmlDoc

/-- The tags of the shorthands that take content. -/
inductive ContainerTag where
  | a | b | button | code | div | em | footer | form | h1 | h2 | h3 | header | i | label | li | nav
  | ol | p | pre | sect | span | strong | table | td | th | tr | ul
deriving DecidableEq

def ContainerTag.name : ContainerTag → String
  | .a => "a"
  | .b => "b"
  | .button => "button"
  | .code => "code"
  | .div => "div"
  | .em => "em"
  | .footer => "footer"
  | .form => "form"
  | .h1 => "h1"
  | .h2 => "h2"
  | .h3 => "h3"
  | .header => "header"
  | .i => "i"
  | .label => "label"
  | .li => "li"
  | .nav => "nav"
  | .ol => "ol"
  | .p => "p"
  | .pre => "pre"
  | .sect => "section"
  | .span => "span"
  | .strong => "strong"
  | .table => "table"
  | .td => "td"
  | .th => "th"
  | .tr => "tr"
  | .ul => "ul"

def ContainerTag.all : List ContainerTag :=
  [.a, .b, .button, .code, .div, .em, .footer, .form, .h1, .h2, .h3, .header, .i, .label, .li, .nav,
    .ol, .p, .pre, .sect, .span, .strong, .table, .td, .th, .tr, .ul]

def ContainerTag.ofName? (name : String) : Option ContainerTag :=
  all.find? fun tag => tag.name = name

/-- The tags of the shorthands that take attributes only. -/
inductive VoidTag where
  | br | hr | img | input | link | metadata
deriving DecidableEq

def VoidTag.name : VoidTag → String
  | .br => "br"
  | .hr => "hr"
  | .img => "img"
  | .input => "input"
  | .link => "link"
  | .metadata => "meta"

def VoidTag.all : List VoidTag := [.br, .hr, .img, .input, .link, .metadata]

def VoidTag.ofName? (name : String) : Option VoidTag :=
  all.find? fun tag => tag.name = name

/-- A request for an element. -/
inductive TagCall where
  | tag (name : String) (content : Content) (attrs : Attributes)
  /-- By name, with loosely typed arguments: content, then attributes. -/
  | byName (name : String) (args : List Arg)
  | container (tag : ContainerTag) (content : Content) (attrs : Attributes)
  | void (tag : VoidTag) (attrs : Attributes)

namespace TagCall

/-- The most arguments a call by name takes: content and attributes. -/
def maxArgs : Nat := 2

/-- The attributes that the second argument of a call by name stands for. -/
def attrsOfArg (name : String) : Option Arg → Except MarkupError Attributes
  | none | some (.value .nil) => .ok .empty
  | some (.attrs attrs) => .ok attrs
  | some arg => .error (.invalidArgument name .attributeMap (some arg.kind))

/-- Accepts a name only if it can be called as a tag. -/
def checkName (name : String) : Except MarkupError Unit :=
  if Name.isTagName name then .ok () else .error (.unknownMember name)

/-- Accepts a list of arguments only if it is not too long. -/
def checkCount (name : String) (args : List Arg) : Except MarkupError Unit :=
  if args.length ≤ maxArgs then .ok () else .error (.tooManyArguments name args.length maxArgs)

/-- The element asked for. The shorthands have names that need no check. -/
def element : TagCall → Except MarkupError Element
  | .tag name content attrs => do
    checkName name
    Element.compose name content attrs
  | .byName name args => do
    checkName name
    checkCount name args
    let attrs ← attrsOfArg name args[1]?
    Element.compose name (args[0]?.elim .empty Arg.toContent) attrs
  | .container shorthand content attrs => Element.compose shorthand.name content attrs
  | .void shorthand attrs => Element.compose shorthand.name .empty attrs

end TagCall

end HtmlDoc
