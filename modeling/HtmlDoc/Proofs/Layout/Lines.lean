import HtmlDoc.Proofs.Layout.Composition

/-!
Lines: how the text of a document ends. A block element ends its line and an inline element does not.
What a tree leaves of its last line can be read off its nodes: nothing, an indentation with no text
behind it, or some text. Main statement: for every indent of spaces and tabs this decides what is
missing for the line to be ended.
-/

namespace HtmlDoc

theorem Text.escapeOnce_eq_empty {text : String} : Text.escapeOnce text = "" ↔ text = "" := by
  have hchar (c : Char) (rest : List Char) : Text.escapeChar c rest ≠ [] := by
    unfold Text.escapeChar
    repeat' split
    all_goals exact List.cons_ne_nil _ _
  rw [← String.toList_eq_nil_iff, ← String.toList_eq_nil_iff (b := text), Text.escapeOnce,
    String.toList_ofList]
  cases text.toList with
  | nil => exact Iff.rfl
  | cons c rest =>
    rw [Text.escapeChars, List.append_eq_nil_iff]
    exact iff_of_false (fun h => hchar c rest h.1) (List.cons_ne_nil c rest)

theorem Fragment.asMarkup_eq_empty {fragment : Fragment} :
    fragment.asMarkup = "" ↔ fragment.text = "" := by
  unfold Fragment.asMarkup
  split
  · exact Iff.rfl
  · exact Text.escapeOnce_eq_empty

namespace Layout

variable {layout : Layout}

theorem lineEnd_append (before : String) {text : String} (h : text ≠ "") :
    lineEnd (before ++ text) = lineEnd text := by
  have hchars : text.toList ≠ [] := fun hnil => h (String.toList_eq_nil_iff.mp hnil)
  have hlast : (before ++ text).toList.getLast? = text.toList.getLast? := by
    rw [String.toList_append, List.getLast?_append, List.getLast?_eq_some_getLast hchars]
    rfl
  have hne : before ++ text ≠ "" := fun hempty => h (String.append_eq_empty_iff.mp hempty).2
  rw [lineEnd_eq, lineEnd_eq, hlast]
  simp only [h, hne, false_or]

/-- Every element is written up to a closing bracket, and a block element ends its line after it. -/
theorem elementText_ends (layout : Layout) (depth : Nat) (fresh : Bool) (element : Element) :
    ∃ body, layout.elementText depth fresh element =
      body ++ if element.inline then ">" else "\n" := by
  obtain ⟨tag, attrs, children, void, inline, closed⟩ := element
  simp only [elementText]
  split
  · -- Without a closing tag the element has no children, and its opening tag comes last.
    cases hclosed : closed || !children.isEmpty with
    | true =>
      rw [closingTag, if_pos rfl, ← String.append_assoc]
      exact ⟨_, rfl⟩
    | false =>
      have hchildren : children = [] := by
        rw [Bool.or_eq_false_iff, Bool.not_eq_false', List.isEmpty_iff] at hclosed
        exact hclosed.2
      refine ⟨layout.lead depth fresh inline ++ ("<" ++ tag ++ attrs.written), ?_⟩
      rw [hchildren, treeText, closingTag, openingTag]
      simp only [Bool.false_eq_true, if_false, String.append_empty, String.append_assoc]
  split
  · exact ⟨_, rfl⟩
  · exact ⟨_, rfl⟩

theorem lineEnd_elementText (before : String) (depth : Nat) (fresh : Bool) (element : Element) :
    lineEnd (before ++ layout.elementText depth fresh element) =
      if element.inline then "\n" else "" := by
  obtain ⟨body, hbody⟩ := elementText_ends layout depth fresh element
  rw [hbody, ← String.append_assoc]
  cases element.inline with
  | true =>
    rw [if_pos rfl, if_pos rfl, lineEnd_append _ (by decide), lineEnd_eq]
    decide
  | false =>
    rw [if_neg (by decide), if_neg (by decide), lineEnd_append _ (by decide), lineEnd_eq]
    decide

/-- An indent that is made of spaces and tabs, if of anything. -/
def BlankIndent (layout : Layout) : Prop :=
  ∀ c ∈ layout.indent.toList, c = ' ' ∨ c = '\t'

instance (layout : Layout) : Decidable layout.BlankIndent :=
  List.decidableBAll (fun c => c = ' ' ∨ c = '\t') layout.indent.toList

/-- Whether indentation shows. -/
def isWide (layout : Layout) : Bool := !layout.indent.isEmpty

theorem indentation_of_empty (h : layout.indent = "") (depth : Nat) :
    layout.indentation depth = "" := by
  rw [indentation, h]
  induction depth with
  | zero => rfl
  | succ depth ih => rw [List.replicate_succ, String.join_cons, ih, String.append_empty]

theorem lineEnd_indentation (hblank : layout.BlankIndent) (before : String) (depth : Nat) :
    lineEnd (before ++ layout.indentation (depth + 1)) =
      if layout.isWide then "\n" else lineEnd before := by
  by_cases hempty : layout.indent = ""
  · have hnarrow : layout.isWide = false := by rw [isWide, hempty]; rfl
    rw [indentation_of_empty hempty, String.append_empty, hnarrow]
    rfl
  · -- Of an indentation that shows, the last character written is one of the indent.
    have hindent : layout.indentation (depth + 1) = layout.indentation depth ++ layout.indent := by
      rw [indentation, List.replicate_succ', String.join_append, indentation, String.join_cons,
        String.join_nil, String.append_empty]
    have hwide : layout.isWide = true := by simpa [isWide] using hempty
    have hchars : layout.indent.toList ≠ [] := fun hnil => hempty (String.toList_eq_nil_iff.mp hnil)
    have hlast : layout.indent.toList.getLast? ≠ some '\n' := by
      intro hline
      have hmem := List.mem_of_getLast? hline
      rcases hblank '\n' hmem with h | h <;> exact absurd h (by decide)
    rw [hindent, ← String.append_assoc, lineEnd_append _ hempty, lineEnd_eq, hwide]
    simp only [hempty, hlast, or_self, if_false, if_true]

/-- How the last line of an output stands: nothing is on it, or nothing but an indentation with no
text behind it, or text. -/
inductive LineState where
  | fresh
  | indented
  | written
deriving DecidableEq

namespace LineState

/-- What is missing for a line to be ended. An indentation alone counts if it shows. -/
def ending (wide : Bool) : LineState → String
  | fresh => ""
  | indented => if wide then "\n" else ""
  | written => "\n"

/-- How the line stands behind a text, which is indented before if `indent` says so. -/
def afterText (state : LineState) (indent : Bool) (fragment : Fragment) : LineState :=
  if fragment.text = "" then if indent && state = fresh then indented else state
  else if lineEnd fragment.asMarkup = "" then fresh
  else written

/-- How the line stands behind the nodes of a tree. -/
def after (state : LineState) (indent : Bool) : List Node → LineState
  | [] => state
  | .text fragment :: nodes => (state.afterText indent fragment).after false nodes
  | .element child :: nodes => (if child.inline then written else fresh).after indent nodes

end LineState

theorem lineEnd_eq_empty_or (text : String) : lineEnd text = "" ∨ lineEnd text = "\n" := by
  unfold lineEnd
  split
  · exact Or.inl rfl
  · exact Or.inr rfl

theorem lineEnd_text (hblank : layout.BlankIndent) {before : String} {state : LineState}
    (h : lineEnd before = state.ending layout.isWide) (depth : Nat) (indent : Bool)
    (fragment : Fragment) :
    lineEnd (before ++ ((if indent then layout.indentation (depth + 1) else "") ++
      fragment.asMarkup)) = (state.afterText indent fragment).ending layout.isWide := by
  unfold LineState.afterText
  by_cases hempty : fragment.text = ""
  · rw [if_pos hempty, Fragment.asMarkup_eq_empty.mpr hempty, String.append_empty]
    cases indent with
    | false => simpa using h
    | true =>
      rw [if_pos rfl, lineEnd_indentation hblank, h]
      -- Only at the start of a line does it matter whether the indentation shows.
      cases state <;> cases layout.isWide <;> rfl
  · have hmarkup : fragment.asMarkup ≠ "" := fun h => hempty (Fragment.asMarkup_eq_empty.mp h)
    rw [if_neg hempty, ← String.append_assoc, lineEnd_append _ hmarkup]
    rcases lineEnd_eq_empty_or fragment.asMarkup with hend | hend
    · rw [if_pos hend]
      exact hend
    · rw [if_neg (by rw [hend]; decide)]
      exact hend

/-- How a line stands behind the children of a block element follows from the nodes, whatever the
indent is made of: with it goes what is missing for the line to be ended. -/
theorem lineEnd_treeText (hblank : layout.BlankIndent) {before : String} {state : LineState}
    (h : lineEnd before = state.ending layout.isWide) (depth : Nat) (indent : Bool)
    (nodes : List Node) :
    lineEnd (before ++ layout.treeText (depth + 1) indent nodes) =
      (state.after indent nodes).ending layout.isWide := by
  induction nodes generalizing before state indent with
  | nil =>
    rw [treeText, String.append_empty]
    exact h
  | cons node nodes ih =>
    cases node with
    | text fragment =>
      have htext := lineEnd_text hblank h depth indent fragment
      rw [treeText, ← String.append_assoc]
      exact ih htext false
    | element child =>
      have hchild : lineEnd (before ++ layout.elementText (depth + 1) indent child) =
          LineState.ending layout.isWide (if child.inline then .written else .fresh) := by
        rw [lineEnd_elementText]
        cases child.inline <;> rfl
      rw [treeText, ← String.append_assoc]
      exact ih hchild indent

theorem lineEnd_children (hblank : layout.BlankIndent) (depth : Nat) (children : List Node) :
    lineEnd (layout.treeText (depth + 1) true children) =
      (LineState.after .fresh true children).ending layout.isWide := by
  -- The children of a block element start a line.
  have hstart : lineEnd "" = LineState.ending layout.isWide .fresh := by
    rw [lineEnd_eq]
    rfl
  have hchildren := lineEnd_treeText hblank hstart depth true children
  rwa [String.empty_append] at hchildren

end Layout

end HtmlDoc
