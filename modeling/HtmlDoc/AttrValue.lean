import HtmlDoc.Fragment
import HtmlDoc.Number

/-!
Values of attributes: nothing, a text, or a flag that is set or not.
-/

namespace HtmlDoc

inductive AttrValue where
  | nil
  | text (fragment : Fragment)
  | flag (set : Bool)
deriving DecidableEq, Inhabited

namespace AttrValue

/-- Equal up to the trust of the text. -/
def same : AttrValue → AttrValue → Bool
  | .nil, .nil => true
  | .text a, .text b => a == b
  | .flag a, .flag b => a == b
  | _, _ => false

instance : BEq AttrValue := ⟨same⟩

/-- A number stands for its text, which is not markup. -/
def ofNumber (number : Number) : AttrValue := .text (.plain number.text)

/-- Whether the attribute is left out of the tag. -/
def isOmitted : AttrValue → Bool
  | .nil | .flag false => true
  | _ => false

/-- Whether the value is written as the bare key: a flag that is set, or a blank text. -/
def isBlank : AttrValue → Bool
  | .nil | .flag false => false
  | .flag true => true
  | .text fragment => fragment.isBlank

end AttrValue

end HtmlDoc
