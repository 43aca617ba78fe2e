import HtmlDoc.Layout

/-!
Rendering without a buffer. What a tree or an element writes does not depend on what has been
written before it, so it is a text, put together from the texts of its parts. Main statement: the
writers append that text.
-/

namespace HtmlDoc

/-- What a value puts between its quotes. -/
def AttrValue.quoted : AttrValue → String
  | .text fragment => fragment.asMarkup
  | _ => ""

/-- What a value contributes to an opening tag under its key. -/
def AttrValue.written (key : String) (value : AttrValue) : String :=
  if value.isOmitted then ""
  else if value.isBlank && !Name.isAlwaysQuoted key then " " ++ key
  else " " ++ key ++ "=\"" ++ value.quoted ++ "\""

def Attributes.written (attrs : Attributes) : String :=
  String.join (attrs.entries.map fun entry => entry.2.written entry.1)

def openingTag (tag : String) (attrs : Attributes) : String := "<" ++ tag ++ attrs.written ++ ">"

/-- A tag as it stands in markup. -/
def bracketed (tag : String) : String := "<" ++ tag ++ ">"

/-- The closing tag, without its brackets, of an element that has one. -/
def closingTags (tag : String) (closed : Bool) : List String :=
  if closed then ["/" ++ tag] else []

theorem openingTag_eq (tag : String) (attrs : Attributes) :
    openingTag tag attrs = bracketed (tag ++ attrs.written) := by
  rw [openingTag, bracketed, ← String.append_assoc]

theorem closingTag_eq (tag : String) (closed : Bool) :
    closingTag tag closed = String.join ((closingTags tag closed).map bracketed) := by
  cases closed with
  | false => rfl
  | true =>
    have hslash : "</" ++ tag = "<" ++ ("/" ++ tag) := by
      rw [← String.append_assoc]
      rfl
    rw [closingTag, closingTags, if_pos rfl, if_pos rfl, hslash, List.map_singleton,
      String.join_cons, String.join_nil, String.append_empty, bracketed]

theorem appendValue_eq {out : Fragment} (h : out.trusted = true) (value : AttrValue) :
    appendValue out value = out.append value.quoted := by
  cases value with
  | text fragment => exact Fragment.push_of_trusted h fragment
  | nil => exact (Fragment.append_empty out).symm
  | flag set => exact (Fragment.append_empty out).symm

theorem appendAttr_eq {out : Fragment} (h : out.trusted = true) (key : String)
    (value : AttrValue) : appendAttr out key value = out.append (value.written key) := by
  unfold appendAttr AttrValue.written
  split
  · exact (Fragment.append_empty out).symm
  split
  · rfl
  · rw [appendValue_eq (Fragment.trusted_append h _)]
    simp only [Fragment.append_append, String.append_assoc]

theorem appendAttrs_eq {out : Fragment} (h : out.trusted = true) (attrs : Attributes) :
    appendAttrs out attrs = out.append attrs.written := by
  unfold appendAttrs Attributes.written
  generalize attrs.entries = entries
  induction entries generalizing out with
  | nil => exact (Fragment.append_empty out).symm
  | cons entry entries ih =>
    rw [List.foldl_cons, appendAttr_eq h, ih (Fragment.trusted_append h _),
      Fragment.append_append, List.map_cons, String.join_cons]

/-- Whether the node is a text. -/
def Node.isText : Node → Bool
  | .text _ => true
  | .element _ => false

namespace Layout

/-- What is missing at the end of a text, inside a block element, for the line to be ended. Before
the text a line has ended. -/
def lineEnd (text : String) : String :=
  if text.isEmpty || text.endsWith '\n' then "" else "\n"

theorem lineEnd_eq (text : String) :
    lineEnd text = if text = "" ∨ text.toList.getLast? = some '\n' then "" else "\n" := by
  unfold lineEnd
  simp only [String.endsWith_char_eq_getLast?, Bool.or_eq_true, String.isEmpty_iff, beq_iff_eq]

-- The writers look back at their output in one place only, where a block element closes. What they
-- look at there has been written by the element itself, so its own text decides.
mutual

/-- The text of a tree at a depth; `fresh` says that it starts a line. -/
def treeText (layout : Layout) (depth : Nat) (fresh : Bool) : List Node → String
  | [] => ""
  | .text fragment :: nodes =>
    (if fresh then layout.indentation depth else "") ++ fragment.asMarkup ++
      layout.treeText depth false nodes
  | .element child :: nodes =>
    layout.elementText depth fresh child ++ layout.treeText depth fresh nodes

/-- The text of an element at a depth. -/
def elementText (layout : Layout) (depth : Nat) (fresh : Bool) : Element → String
  | ⟨tag, attrs, children, _, inline, closed⟩ =>
    let opening := layout.lead depth fresh inline ++ openingTag tag attrs
    let closing := closingTag tag (closed || !children.isEmpty)
    if inline then opening ++ layout.treeText (depth + 1) false children ++ closing
    else if children.isEmpty then opening ++ closing ++ "\n"
    else
      let inner := layout.treeText (depth + 1) true children
      opening ++ "\n" ++ inner ++ lineEnd inner ++ layout.indentation depth ++ closing ++ "\n"

end

end Layout

/-- At the end of a line, ending the line after a text takes what is missing at its end. -/
theorem Fragment.endLine_append {out : Fragment} (h : out.endsLine = true) (text : String) :
    (out.append text).endLine = out.append (text ++ Layout.lineEnd text) := by
  -- Whether the line is ended shows in the text, unless the text is empty.
  have hends : (out.append text).endsLine = (text.isEmpty || text.endsWith '\n') := by
    rw [endsLine_eq] at h
    rw [endsLine_eq, append, String.toList_append, List.getLast?_append,
      String.endsWith_char_eq_getLast?]
    by_cases hempty : text = ""
    · rw [hempty]
      exact h
    · have hchars : text.toList ≠ [] := by
        intro hnil
        exact hempty (String.toList_eq_nil_iff.mp hnil)
      have hfalse : text.isEmpty = false := by simpa using hempty
      rw [hfalse, List.getLast?_eq_some_getLast hchars]
      rfl
  unfold endLine Layout.lineEnd
  rw [hends]
  split
  · rw [String.append_empty]
  · rw [append_append]

namespace Layout

variable {layout : Layout} {out : Fragment}

theorem appendOpening_eq (h : out.trusted = true) (depth : Nat) (fresh inline : Bool)
    (tag : String) (attrs : Attributes) :
    layout.appendOpening depth fresh inline out tag attrs =
      out.append (layout.lead depth fresh inline ++ openingTag tag attrs) := by
  unfold appendOpening openingTag
  rw [appendAttrs_eq (Fragment.trusted_append h _)]
  simp only [Fragment.append_append, String.append_assoc]

-- By induction on the tree: each part is appended to an output that is trusted still, so plain
-- texts are escaped on their way wherever they stand.
mutual

theorem appendTree_eq {out : Fragment} (h : out.trusted = true) (depth : Nat) (fresh : Bool)
    (nodes : List Node) :
    layout.appendTree depth fresh out nodes = out.append (layout.treeText depth fresh nodes) := by
  cases nodes with
  | nil => exact (Fragment.append_empty out).symm
  | cons node nodes =>
    cases node with
    | text fragment =>
      have hstart : (if fresh then out.append (layout.indentation depth) else out) =
          out.append (if fresh then layout.indentation depth else "") := by
        split
        · rfl
        · exact (Fragment.append_empty out).symm
      -- The first text of a fresh line is indented, and after it the line is no longer fresh.
      simp only [appendTree, treeText]
      rw [hstart, Fragment.push_of_trusted (Fragment.trusted_append h _), Fragment.append_append,
        appendTree_eq (Fragment.trusted_append h _) depth false nodes, Fragment.append_append]
    | element child =>
      simp only [appendTree, treeText]
      rw [appendElement_eq h depth fresh child,
        appendTree_eq (Fragment.trusted_append h _) depth fresh nodes, Fragment.append_append]

theorem appendElement_eq {out : Fragment} (h : out.trusted = true) (depth : Nat) (fresh : Bool)
    (element : Element) :
    layout.appendElement depth fresh out element =
      out.append (layout.elementText depth fresh element) := by
  obtain ⟨tag, attrs, children, void, inline, closed⟩ := element
  have hchildren (text : String) (fresh : Bool) :
      layout.appendTree (depth + 1) fresh (out.append text) children =
        out.append (text ++ layout.treeText (depth + 1) fresh children) := by
    rw [appendTree_eq (Fragment.trusted_append h text) (depth + 1) fresh children,
      Fragment.append_append]
  simp only [appendElement, elementText]
  rw [appendOpening_eq h]
  split
  · rw [hchildren, Fragment.append_append]
  split
  · simp only [Fragment.append_append, String.append_assoc]
  · -- A line has ended where the children start, so their own text says whether one is missing.
    have hline (text : String) : (out.append (text ++ "\n")).endsLine = true := by
      rw [Fragment.endsLine_eq, Fragment.append, ← String.append_assoc, String.toList_append]
      simp
    rw [Fragment.append_append, appendTree_eq (Fragment.trusted_append h _) (depth + 1) true
      children, Fragment.endLine_append (hline _)]
    simp only [Fragment.append_append, String.append_assoc]

end

/-- Whether a line that was fresh before these nodes is fresh behind them: no text is among them. -/
def freshAfter (fresh : Bool) : List Node → Bool
  | [] => fresh
  | .text _ :: _ => false
  | .element _ :: nodes => freshAfter fresh nodes

theorem freshAfter_false (nodes : List Node) : freshAfter false nodes = false := by
  induction nodes with
  | nil => rfl
  | cons node nodes ih =>
    cases node with
    | text fragment => rfl
    | element child => exact ih

/-- Trees written one after the other are written like one tree. -/
theorem treeText_append (layout : Layout) (depth : Nat) (fresh : Bool) (left right : List Node) :
    layout.treeText depth fresh (left ++ right) =
      layout.treeText depth fresh left ++ layout.treeText depth (freshAfter fresh left) right := by
  induction left generalizing fresh with
  | nil => exact String.empty_append.symm
  | cons node nodes ih =>
    cases node with
    | text fragment =>
      rw [List.cons_append, treeText, treeText, ih, freshAfter_false, freshAfter]
      simp only [String.append_assoc]
    | element child =>
      rw [List.cons_append, treeText, treeText, ih, freshAfter, String.append_assoc]

theorem treeMarkup_eq (layout : Layout) (nodes : List Node) (depth : Nat) (fresh : Bool) :
    layout.treeMarkup nodes depth fresh = .markup (layout.treeText depth fresh nodes) := by
  have hempty : Fragment.empty.trusted = true := rfl
  rw [treeMarkup, appendTree_eq hempty, Fragment.append, Fragment.empty, Fragment.markup,
    String.empty_append]
  rfl

theorem elementMarkup_eq (layout : Layout) (element : Element) (depth : Nat) (fresh : Bool) :
    layout.elementMarkup element depth fresh =
      .markup (layout.elementText depth fresh element) := by
  have hempty : Fragment.empty.trusted = true := rfl
  rw [elementMarkup, appendElement_eq hempty, Fragment.append, Fragment.empty, Fragment.markup,
    String.empty_append]
  rfl

theorem freshAfter_eq (fresh : Bool) (nodes : List Node) :
    freshAfter fresh nodes = (fresh && !nodes.any Node.isText) := by
  induction nodes with
  | nil => rw [freshAfter, List.any_nil, Bool.not_false, Bool.and_true]
  | cons node nodes ih =>
    cases node with
    | text fragment =>
      rw [freshAfter, List.any_cons, Node.isText, Bool.true_or, Bool.not_true, Bool.and_false]
    | element child => rw [freshAfter, List.any_cons, Node.isText, Bool.false_or, ih]

/-- A block element with children writes its tags on lines of their own, around a text that is the
rendering of its children one level deeper. -/
theorem elementText_block (layout : Layout) (depth : Nat) (fresh : Bool) {element : Element}
    (hblock : element.inline = false) (hchildren : element.children ≠ []) :
    layout.elementText depth fresh element =
      (if fresh then "" else "\n") ++ layout.indentation depth ++
        openingTag element.tag element.attrs ++ "\n" ++
        layout.treeText (depth + 1) true element.children ++
        lineEnd (layout.treeText (depth + 1) true element.children) ++
        layout.indentation depth ++ "</" ++ element.tag ++ ">" ++ "\n" := by
  obtain ⟨tag, attrs, children, void, inline, closed⟩ := element
  cases hblock
  have hempty : children.isEmpty = false := by
    rw [Bool.eq_false_iff]
    exact fun h => hchildren (List.isEmpty_iff.mp h)
  have hlead : layout.lead depth fresh false =
      (if fresh then "" else "\n") ++ layout.indentation depth := by
    cases fresh with
    | false => rfl
    | true => exact String.empty_append.symm
  have hclosing : closingTag tag (closed || !false) = "</" ++ tag ++ ">" := by
    rw [Bool.not_false, Bool.or_true, closingTag, if_pos rfl]
  simp only [elementText]
  rw [if_neg (by decide), if_neg (by rw [hempty]; decide), hempty, hclosing, hlead]
  simp only [String.append_assoc]

/-- Rendering goes part by part. Two trees one after the other are rendered like each on its own,
the second one in running text if a text is in the first. Behind any markup the writers append what
they write on nothing. So a block element is its tags around what its children are rendered to, on
lines of their own: the last line of the children is ended if they have not ended it. -/
theorem markup_compositional (layout : Layout) (depth : Nat) (fresh : Bool) :
    (∀ left right : List Node, layout.treeMarkup (left ++ right) depth fresh =
      .markup ((layout.treeMarkup left depth fresh).text ++
        (layout.treeMarkup right depth (fresh && !left.any Node.isText)).text)) ∧
    (∀ before : String,
      (∀ nodes : List Node, layout.appendTree depth fresh (.markup before) nodes =
        .markup (before ++ (layout.treeMarkup nodes depth fresh).text)) ∧
      ∀ element : Element, layout.appendElement depth fresh (.markup before) element =
        .markup (before ++ (layout.elementMarkup element depth fresh).text)) ∧
    ∀ element : Element, element.inline = false → element.children ≠ [] →
      ∃ inner, layout.treeMarkup element.children (depth + 1) true = .markup inner ∧
        layout.elementMarkup element depth fresh =
          .markup ((if fresh then "" else "\n") ++ layout.indentation depth ++
            "<" ++ element.tag ++ (appendAttrs .empty element.attrs).text ++ ">" ++ "\n" ++ inner ++
            (if inner = "" ∨ inner.toList.getLast? = some '\n' then "" else "\n") ++
            layout.indentation depth ++ "</" ++ element.tag ++ ">" ++ "\n") := by
  refine ⟨?inRow, ?behind, ?block⟩
  case inRow =>
    intro left right
    rw [treeMarkup_eq, treeMarkup_eq, treeMarkup_eq, treeText_append, freshAfter_eq]
    rfl
  case behind =>
    -- Only the flag of what is there already matters: it makes the new text go in as it stands.
    intro before
    have hbefore : (Fragment.markup before).trusted = true := rfl
    constructor
    · intro nodes
      rw [appendTree_eq hbefore, treeMarkup_eq]
      rfl
    · intro element
      rw [appendElement_eq hbefore, elementMarkup_eq]
      rfl
  case block =>
    intro element hblock hchildren
    have hattrs : (appendAttrs .empty element.attrs).text = element.attrs.written := by
      have hempty : Fragment.empty.trusted = true := rfl
      rw [appendAttrs_eq hempty]
      exact String.empty_append
    refine ⟨_, treeMarkup_eq layout element.children (depth + 1) true, ?_⟩
    rw [elementMarkup_eq, elementText_block layout depth fresh hblock hchildren, openingTag, hattrs,
      lineEnd_eq]
    simp only [String.append_assoc]

/-- A list behind a text and behind markup. Its item leaves the line open, and the list ends it. -/
theorem markup_compositional_list :
    let item : Element := ⟨"li", .empty, [.text (.plain "a < b")], false, true, true⟩
    let list : Element := ⟨"ul", .empty, [.element item], false, false, true⟩
    treeMarkup {} ([.text (.plain "x")] ++ [.element list]) 1 true =
        .markup ("  x" ++ (treeMarkup {} [.element list] 1 false).text) ∧
      appendElement {} 1 false (.markup "<hr>") list =
        .markup "<hr>\n  <ul>\n    <li>a &lt; b</li>\n  </ul>\n" := by
  intro item list
  obtain ⟨hrow, -, -⟩ := markup_compositional {} 1 true
  obtain ⟨-, hbehind, hblock⟩ := markup_compositional {} 1 false
  obtain ⟨inner, hinner, hlist⟩ := hblock list rfl (List.cons_ne_nil _ _)
  have htext : inner = "    <li>a &lt; b</li>" := by
    have hitem : treeMarkup {} list.children 2 true = .markup "    <li>a &lt; b</li>" := by decide
    exact congrArg Fragment.text (hinner.symm.trans hitem)
  have hfirst : treeMarkup {} [.text (.plain "x")] 1 true = .markup "  x" := by decide
  constructor
  · rw [hrow, hfirst]
    rfl
  · rw [(hbehind "<hr>").2, hlist, htext]
    decide

end Layout

end HtmlDoc
