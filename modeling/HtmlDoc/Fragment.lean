import HtmlDoc.Text.Blank
import HtmlDoc.Text.Entity
import HtmlDoc.Text.ScriptLiteral

/-!
Fragments: text that remembers whether it may be written into markup as it stands. Plain text is
escaped on its way into trusted text, and trusted text is never escaped again.
-/

namespace HtmlDoc

/-- A text, and whether it is already markup. -/
structure Fragment where
  text : String
  trusted : Bool
deriving DecidableEq

namespace Fragment

/-- Two fragments count as equal when their texts are, whatever their trust. -/
instance : BEq Fragment := ⟨fun a b => a.text == b.text⟩

def markup (text : String) : Fragment := ⟨text, true⟩

/-- Text that has to be escaped before it is written. -/
def plain (text : String) : Fragment := ⟨text, false⟩

/-- Trusted and empty, ready to be appended to. -/
def empty : Fragment := markup ""

instance : Inhabited Fragment := ⟨empty⟩

/-- The same text, taken for markup. -/
def trust (f : Fragment) : Fragment := { f with trusted := true }

/-- Whether the text is empty or white space only. -/
def isBlank (f : Fragment) : Bool := Text.isBlank f.text

def isEmpty (f : Fragment) : Bool := f.text.isEmpty

def byteSize (f : Fragment) : Nat := f.text.utf8ByteSize

/-- Appends a text as it stands. -/
def append (f : Fragment) (text : String) : Fragment := { f with text := f.text ++ text }

theorem append_append (f : Fragment) (left right : String) :
    (f.append left).append right = f.append (left ++ right) := by
  simp only [append, String.append_assoc]

theorem append_empty (f : Fragment) : f.append "" = f := by
  simp only [append, String.append_empty]

theorem trusted_append {out : Fragment} (h : out.trusted = true) (text : String) :
    (out.append text).trusted = true := h

/-- What `piece` contributes to markup: trusted text as it stands, plain text escaped once. -/
def asMarkup (piece : Fragment) : String :=
  if piece.trusted then piece.text else Text.escapeOnce piece.text

/-- Appends a fragment. Trusted text takes it as markup; plain text, which will be escaped as a
whole, takes it as it stands. -/
def push (f piece : Fragment) : Fragment :=
  f.append (if f.trusted then piece.asMarkup else piece.text)

theorem push_of_trusted {out : Fragment} (h : out.trusted = true) (piece : Fragment) :
    out.push piece = out.append piece.asMarkup := by
  unfold push
  rw [if_pos h]

/-- A copy of `f` with a fragment appended. -/
def concat (f piece : Fragment) : Fragment := f.push piece

instance : Add Fragment := ⟨concat⟩

/-- The fragment as trusted markup. -/
def escapeOnce (f : Fragment) : Fragment := markup f.asMarkup

/-- The text written as the body of a script literal, trusted as much as before. -/
def scriptLiteral (f : Fragment) : Fragment := { f with text := Text.scriptLiteral f.text }

def endsLine (f : Fragment) : Bool := f.text.endsWith '\n'

theorem endsLine_eq (f : Fragment) : f.endsLine = (f.text.toList.getLast? == some '\n') :=
  String.endsWith_char_eq_getLast?

def endLine (f : Fragment) : Fragment := if f.endsLine then f else f.append "\n"

end Fragment

end HtmlDoc
