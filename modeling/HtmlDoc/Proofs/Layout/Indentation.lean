import HtmlDoc.Proofs.Layout.Lines
import HtmlDoc.Proofs.Tree.Elements
import HtmlDoc.Settings.Basic

/-!
Indentation: what the indent does to a document. Taken without spaces and tabs, a rendering is the same
for all indents that show, and the same for all that do not. Between the two there is one line end for
each block element whose last line holds nothing but an indentation. Main statement: two indents give
the same document up to spaces and tabs exactly when both show, or neither does, or there is no such
element.
-/

namespace HtmlDoc

/-- A text with all its spaces and tabs deleted. -/
def Text.withoutBlanks (text : String) : String :=
  String.ofList (text.toList.filter fun c => c ≠ ' ' ∧ c ≠ '\t')

theorem Text.withoutBlanks_append (left right : String) :
    Text.withoutBlanks (left ++ right) = Text.withoutBlanks left ++ Text.withoutBlanks right := by
  rw [Text.withoutBlanks, String.toList_append, List.filter_append, String.ofList_append]
  rfl

/-- A block element whose children end in empty texts on a line of their own: before these texts comes
nothing, or elements only, of which the last is a block. Of what stands on that line only an
indentation is written. -/
structure Element.Dangling (element : Element) : Prop where
  block : element.inline = false
  children : ∃ (elements : List Element) (texts : List Fragment), texts ≠ [] ∧
    (∀ text ∈ texts, text.text = "") ∧ (∀ last ∈ elements.getLast?, last.inline = false) ∧
    element.children = elements.map .element ++ texts.map .text

theorem Node.text_cons_eq_map {fragment : Fragment} {nodes : List Node} {texts : List Fragment} :
    .text fragment :: nodes = texts.map Node.text ↔
      ∃ rest, texts = fragment :: rest ∧ nodes = rest.map .text := by
  constructor
  · intro hnodes
    obtain ⟨first, rest, rfl, hfirst, hrest⟩ := List.map_eq_cons_iff.mp hnodes.symm
    cases hfirst
    exact ⟨rest, rfl, hrest.symm⟩
  · rintro ⟨rest, rfl, rfl⟩
    rfl

theorem Node.element_cons_ne_map {child : Element} {nodes : List Node} (texts : List Fragment) :
    .element child :: nodes ≠ texts.map Node.text := by
  intro hnodes
  obtain ⟨first, rest, -, hfirst, -⟩ := List.map_eq_cons_iff.mp hnodes.symm
  cases hfirst

namespace Layout

namespace LineState

theorem afterText_eq_indented {state : LineState} {indent : Bool} {fragment : Fragment} :
    state.afterText indent fragment = .indented ↔
      fragment.text = "" ∧ (state = .indented ∨ indent = true ∧ state = .fresh) := by
  unfold afterText
  by_cases hempty : fragment.text = ""
  · cases state <;> cases indent <;> simp [hempty]
  · by_cases hend : lineEnd fragment.asMarkup = "" <;> simp [hempty, hend]

theorem after_false_eq_indented {state : LineState} {nodes : List Node} :
    state.after false nodes = .indented ↔ state = .indented ∧
      ∃ texts : List Fragment, (∀ text ∈ texts, text.text = "") ∧ nodes = texts.map .text := by
  -- Nothing is indented any more, so the indentation alone was there before and has stayed alone.
  induction nodes generalizing state with
  | nil => simp [after]
  | cons node nodes ih =>
    cases node with
    | text fragment =>
      rw [after, ih, afterText_eq_indented]
      constructor
      · rintro ⟨⟨hempty, hstate⟩, texts, htexts, rfl⟩
        have hindented : state = .indented := by simpa using hstate
        exact ⟨hindented, fragment :: texts, List.forall_mem_cons.mpr ⟨hempty, htexts⟩, rfl⟩
      · rintro ⟨hindented, texts, htexts, hnodes⟩
        obtain ⟨rest, rfl, hrest⟩ := Node.text_cons_eq_map.mp hnodes
        obtain ⟨hempty, htexts⟩ := List.forall_mem_cons.mp htexts
        exact ⟨⟨hempty, Or.inl hindented⟩, rest, htexts, hrest⟩
    | element child =>
      rw [after, ih]
      constructor
      · rintro ⟨hstate, -⟩
        split at hstate <;> cases hstate
      · rintro ⟨-, texts, -, hnodes⟩
        exact absurd hnodes (Node.element_cons_ne_map texts)

theorem after_true_eq_indented {state : LineState} (hstate : state ≠ .indented)
    {nodes : List Node} :
    state.after true nodes = .indented ↔
      ∃ (elements : List Element) (texts : List Fragment), texts ≠ [] ∧
        (∀ text ∈ texts, text.text = "") ∧
        elements.getLast?.elim (state = .fresh) (fun last => last.inline = false) ∧
        nodes = elements.map .element ++ texts.map .text := by
  induction nodes generalizing state with
  | nil =>
    refine iff_of_false hstate ?_
    rintro ⟨elements, texts, hne, -, -, hnodes⟩
    have htexts := (List.append_eq_nil_iff.mp hnodes.symm).2
    exact hne (List.map_eq_nil_iff.mp htexts)
  | cons node nodes ih =>
    cases node with
    | text fragment =>
      -- The first text ends the elements, so none of them can be left.
      rw [after, after_false_eq_indented, afterText_eq_indented]
      constructor
      · rintro ⟨⟨hempty, hfresh⟩, texts, htexts, rfl⟩
        have hfresh : state = .fresh := by simpa [hstate] using hfresh
        refine ⟨[], fragment :: texts, List.cons_ne_nil _ _, ?_, hfresh, rfl⟩
        exact List.forall_mem_cons.mpr ⟨hempty, htexts⟩
      · rintro ⟨elements, texts, hne, htexts, hlast, hnodes⟩
        cases elements with
        | cons first elements => cases hnodes
        | nil =>
          obtain ⟨rest, rfl, hrest⟩ := Node.text_cons_eq_map.mp hnodes
          obtain ⟨hempty, htexts⟩ := List.forall_mem_cons.mp htexts
          exact ⟨⟨hempty, Or.inr ⟨rfl, hlast⟩⟩, rest, htexts, hrest⟩
    | element child =>
      -- An element leaves nothing of the line that was there: while there are only elements, the
      -- last of them counts.
      have hchild : (if child.inline then LineState.written else .fresh) ≠ .indented := by
        cases child.inline <;> decide
      have hfresh : (if child.inline then LineState.written else .fresh) = .fresh ↔
          child.inline = false := by
        cases child.inline <;> decide
      rw [after, ih hchild]
      constructor
      · rintro ⟨elements, texts, hne, htexts, hlast, rfl⟩
        refine ⟨child :: elements, texts, hne, htexts, ?_, rfl⟩
        rw [List.getLast?_cons]
        cases hl : elements.getLast? with
        | none => rw [hl] at hlast; exact hfresh.mp hlast
        | some last => rw [hl] at hlast; exact hlast
      · rintro ⟨elements, texts, hne, htexts, hlast, hnodes⟩
        cases elements with
        | nil => exact absurd hnodes (Node.element_cons_ne_map texts)
        | cons first elements =>
          cases hnodes
          refine ⟨elements, texts, hne, htexts, ?_, rfl⟩
          rw [List.getLast?_cons] at hlast
          cases hl : elements.getLast? with
          | none => rw [hl] at hlast; exact hfresh.mpr hlast
          | some last => rw [hl] at hlast; exact hlast

end LineState

end Layout

theorem Element.dangling_iff {element : Element} : element.Dangling ↔
    element.inline = false ∧ Layout.LineState.after .fresh true element.children = .indented := by
  have hlast (elements : List Element) :
      elements.getLast?.elim True (fun last => last.inline = false) ↔
        ∀ last ∈ elements.getLast?, last.inline = false := by
    cases elements.getLast? <;> simp
  rw [Layout.LineState.after_true_eq_indented (by decide)]
  simp only [hlast]
  exact ⟨fun h => ⟨h.block, h.children⟩, fun h => ⟨h.1, h.2⟩⟩

instance (element : Element) : Decidable element.Dangling :=
  decidable_of_iff _ Element.dangling_iff.symm

namespace Layout

open Text (withoutBlanks withoutBlanks_append)

variable {layout : Layout}

theorem withoutBlanks_indentation (hblank : layout.BlankIndent) (depth : Nat) :
    withoutBlanks (layout.indentation depth) = "" := by
  have hindent : withoutBlanks layout.indent = "" := by
    have hnone : (layout.indent.toList.filter fun c => c ≠ ' ' ∧ c ≠ '\t') = [] := by
      rw [List.filter_eq_nil_iff]
      intro c hc
      rcases hblank c hc with rfl | rfl <;> decide
    rw [withoutBlanks, hnone]
  unfold indentation
  induction depth with
  | zero => rfl
  | succ depth ih =>
    rw [List.replicate_succ, String.join_cons, withoutBlanks_append, hindent, ih]
    rfl

theorem withoutBlanks_lead (hblank : layout.BlankIndent) (depth : Nat) (fresh inline : Bool) :
    withoutBlanks (layout.lead depth fresh inline) = if fresh || inline then "" else "\n" := by
  cases fresh with
  | true => exact withoutBlanks_indentation hblank depth
  | false =>
    cases inline with
    | true => rfl
    | false =>
      have hline : layout.lead depth false false = "\n" ++ layout.indentation depth := rfl
      rw [hline, withoutBlanks_append, withoutBlanks_indentation hblank]
      rfl

theorem withoutBlanks_text (hblank : layout.BlankIndent) (depth : Nat) (fresh : Bool)
    (fragment : Fragment) (nodes : List Node) :
    withoutBlanks (layout.treeText depth fresh (.text fragment :: nodes)) =
      withoutBlanks fragment.asMarkup ++ withoutBlanks (layout.treeText depth false nodes) := by
  have hstart : withoutBlanks (if fresh then layout.indentation depth else "") = "" := by
    split
    · exact withoutBlanks_indentation hblank depth
    · rfl
  rw [treeText, withoutBlanks_append, withoutBlanks_append, hstart, String.empty_append]

/-- What stands between the tags of an element, without spaces and tabs. -/
def bareInner (layout : Layout) (depth : Nat) (element : Element) : String :=
  if element.inline then withoutBlanks (layout.treeText (depth + 1) false element.children)
  else if element.children.isEmpty then ""
  else "\n" ++ withoutBlanks (layout.treeText (depth + 1) true element.children) ++
    (LineState.after .fresh true element.children).ending layout.isWide

/-- Up to spaces and tabs an element is written the same with every indent, but for what stands
between its tags. -/
theorem exists_around (fresh : Bool) (element : Element) : ∃ head tail, ∀ layout : Layout,
    layout.BlankIndent → ∀ depth, withoutBlanks (layout.elementText depth fresh element) =
      head ++ layout.bareInner depth element ++ tail := by
  obtain ⟨tag, attrs, children, void, inline, closed⟩ := element
  refine ⟨(if fresh || inline then "" else "\n") ++ withoutBlanks (openingTag tag attrs),
    withoutBlanks (closingTag tag (closed || !children.isEmpty)) ++ if inline then "" else "\n",
    fun layout hblank depth => ?_⟩
  have hline : withoutBlanks "\n" = "\n" := by decide
  have hending (state : LineState) (wide : Bool) :
      withoutBlanks (state.ending wide) = state.ending wide := by
    cases state <;> cases wide <;> decide
  simp only [elementText, bareInner, lineEnd_children hblank]
  split
  · simp only [withoutBlanks_append, withoutBlanks_lead hblank, String.append_assoc,
      String.append_empty]
  split
  · simp only [withoutBlanks_append, withoutBlanks_lead hblank, hline, String.append_assoc,
      String.empty_append]
  · simp only [withoutBlanks_append, withoutBlanks_lead hblank, hline, hending,
      withoutBlanks_indentation hblank, String.append_assoc, String.empty_append]

section Agreement

variable {first second : Layout}

theorem ending_eq {element : Element} (hblock : element.inline = false)
    (hagree : first.isWide = second.isWide ∨ ¬ element.Dangling) :
    (LineState.after .fresh true element.children).ending first.isWide =
      (LineState.after .fresh true element.children).ending second.isWide := by
  rcases hagree with hwide | hdangling
  · rw [hwide]
  · -- A line that is empty or has text on it is ended the same way whether indents show or not.
    have hstate : LineState.after .fresh true element.children ≠ .indented := fun hstate =>
      hdangling (Element.dangling_iff.mpr ⟨hblock, hstate⟩)
    cases hafter : LineState.after .fresh true element.children with
    | fresh => rfl
    | indented => exact absurd hafter hstate
    | written => rfl

theorem bareInner_eq {depth : Nat} {element : Element}
    (hagree : first.isWide = second.isWide ∨ ¬ element.Dangling)
    (hchildren : ∀ fresh, withoutBlanks (first.treeText (depth + 1) fresh element.children) =
      withoutBlanks (second.treeText (depth + 1) fresh element.children)) :
    first.bareInner depth element = second.bareInner depth element := by
  unfold bareInner
  split
  · exact hchildren false
  split
  · rfl
  · rename_i hinline _
    rw [hchildren true, ending_eq (Bool.eq_false_iff.mpr hinline) hagree]

-- By induction on the tree: the indents are deleted wherever they are written, and where the line of
-- a closing tag depends on them both renderings look at the same nodes.
mutual

theorem withoutBlanks_treeText_eq (hf : first.BlankIndent) (hs : second.BlankIndent) (depth : Nat)
    (fresh : Bool) (nodes : List Node) (hagree : first.isWide = second.isWide ∨
      Node.Throughout (fun inner => ¬ inner.Dangling) nodes) :
    withoutBlanks (first.treeText depth fresh nodes) =
      withoutBlanks (second.treeText depth fresh nodes) := by
  cases nodes with
  | nil => rfl
  | cons node nodes =>
    cases node with
    | text fragment =>
      have hnodes := hagree.imp_right Node.throughout_text_cons.mp
      rw [withoutBlanks_text hf, withoutBlanks_text hs,
        withoutBlanks_treeText_eq hf hs depth false nodes hnodes]
    | element child =>
      have hchild := hagree.imp_right fun h => (Node.throughout_element_cons.mp h).1
      have hnodes := hagree.imp_right fun h => (Node.throughout_element_cons.mp h).2
      rw [treeText, treeText, withoutBlanks_append, withoutBlanks_append,
        withoutBlanks_elementText_eq hf hs depth fresh child hchild,
        withoutBlanks_treeText_eq hf hs depth fresh nodes hnodes]

theorem withoutBlanks_elementText_eq (hf : first.BlankIndent) (hs : second.BlankIndent)
    (depth : Nat) (fresh : Bool) (element : Element) (hagree : first.isWide = second.isWide ∨
      element.Throughout (fun inner => ¬ inner.Dangling)) :
    withoutBlanks (first.elementText depth fresh element) =
      withoutBlanks (second.elementText depth fresh element) := by
  obtain ⟨tag, attrs, children, void, inline, closed⟩ := element
  obtain ⟨head, tail, haround⟩ := exists_around fresh ⟨tag, attrs, children, void, inline, closed⟩
  have hown := hagree.imp_right fun h => ((Element.throughout_iff _).mp h).1
  have hchildren := hagree.imp_right fun h => ((Element.throughout_iff _).mp h).2
  have hinner : first.bareInner depth ⟨tag, attrs, children, void, inline, closed⟩ =
      second.bareInner depth ⟨tag, attrs, children, void, inline, closed⟩ := by
    apply bareInner_eq hown
    intro fresh
    exact withoutBlanks_treeText_eq hf hs (depth + 1) fresh children hchildren
  rw [haround first hf, haround second hs, hinner]

end

end Agreement

section Difference

variable {narrow wide : Layout}

/-- How many elements of a list leave an indentation alone on their last line. -/
def danglingCount (elements : List Element) : Nat :=
  elements.countP fun element => element.Dangling

theorem danglingCount_append (left right : List Element) :
    danglingCount (left ++ right) = danglingCount left + danglingCount right :=
  List.countP_append

theorem length_ending (hn : narrow.isWide = false) (hw : wide.isWide = true) {element : Element}
    (hblock : element.inline = false) :
    ((LineState.after .fresh true element.children).ending wide.isWide).length =
      ((LineState.after .fresh true element.children).ending narrow.isWide).length +
        if element.Dangling then 1 else 0 := by
  rw [hn, hw]
  simp only [Element.dangling_iff, hblock, true_and]
  cases LineState.after .fresh true element.children <;> rfl

theorem length_bareInner (hn : narrow.isWide = false) (hw : wide.isWide = true) {depth : Nat}
    {element : Element} (hchildren : ∀ fresh,
      (withoutBlanks (wide.treeText (depth + 1) fresh element.children)).length =
        (withoutBlanks (narrow.treeText (depth + 1) fresh element.children)).length +
          danglingCount (Node.preorder element.children)) :
    (wide.bareInner depth element).length =
      (narrow.bareInner depth element).length + danglingCount element.preorder := by
  have hcount : danglingCount element.preorder =
      danglingCount (Node.preorder element.children) + if element.Dangling then 1 else 0 := by
    rw [Element.preorder_eq, danglingCount, List.countP_cons]
    simp only [decide_eq_true_eq]
    rfl
  rw [hcount]
  unfold bareInner
  split
  · rename_i hinline
    have hnot : ¬ element.Dangling := fun h => by simp [h.block] at hinline
    rw [hchildren false, if_neg hnot]
    rfl
  split
  · rename_i hempty
    have hnone : element.children = [] := List.isEmpty_iff.mp hempty
    have hnot : ¬ element.Dangling := by
      rw [Element.dangling_iff, hnone]
      exact fun h => absurd h.2 (by decide)
    rw [hnone, if_neg hnot]
    rfl
  · rename_i hinline _
    have hending := length_ending hn hw (Bool.eq_false_iff.mpr hinline)
    simp only [String.length_append]
    rw [hchildren true, hending]
    omega

-- By induction on the tree: the two renderings differ by the line ends before the closing tags of
-- dangling elements, so it is enough to count them.
mutual

theorem length_treeText (hbn : narrow.BlankIndent) (hbw : wide.BlankIndent)
    (hn : narrow.isWide = false) (hw : wide.isWide = true) (depth : Nat) (fresh : Bool)
    (nodes : List Node) :
    (withoutBlanks (wide.treeText depth fresh nodes)).length =
      (withoutBlanks (narrow.treeText depth fresh nodes)).length +
        danglingCount (Node.preorder nodes) := by
  cases nodes with
  | nil => rfl
  | cons node nodes =>
    cases node with
    | text fragment =>
      rw [withoutBlanks_text hbw, withoutBlanks_text hbn, String.length_append,
        String.length_append, length_treeText hbn hbw hn hw depth false nodes, Node.preorder,
        Nat.add_assoc]
    | element child =>
      have hchild := length_elementText hbn hbw hn hw depth fresh child
      have hnodes := length_treeText hbn hbw hn hw depth fresh nodes
      rw [treeText, treeText, withoutBlanks_append, withoutBlanks_append, String.length_append,
        String.length_append, hchild, hnodes, Node.preorder, danglingCount_append]
      omega

theorem length_elementText (hbn : narrow.BlankIndent) (hbw : wide.BlankIndent)
    (hn : narrow.isWide = false) (hw : wide.isWide = true) (depth : Nat) (fresh : Bool)
    (element : Element) :
    (withoutBlanks (wide.elementText depth fresh element)).length =
      (withoutBlanks (narrow.elementText depth fresh element)).length +
        danglingCount element.preorder := by
  obtain ⟨tag, attrs, children, void, inline, closed⟩ := element
  obtain ⟨head, tail, haround⟩ := exists_around fresh ⟨tag, attrs, children, void, inline, closed⟩
  have hinner : (wide.bareInner depth ⟨tag, attrs, children, void, inline, closed⟩).length =
      (narrow.bareInner depth ⟨tag, attrs, children, void, inline, closed⟩).length +
        danglingCount (Element.preorder ⟨tag, attrs, children, void, inline, closed⟩) := by
    apply length_bareInner hn hw
    intro fresh
    exact length_treeText hbn hbw hn hw (depth + 1) fresh children
  rw [haround wide hbw, haround narrow hbn]
  simp only [String.length_append]
  omega

end

/-- Where an element dangles, an indent that shows and one that does not give different documents. -/
theorem not_dangling_of_eq (hbn : narrow.BlankIndent) (hbw : wide.BlankIndent)
    (hn : narrow.isWide = false) (hw : wide.isWide = true) {depth : Nat} {fresh : Bool}
    {nodes : List Node} (heq : withoutBlanks (narrow.treeText depth fresh nodes) =
      withoutBlanks (wide.treeText depth fresh nodes)) :
    Node.Throughout (fun inner => ¬ inner.Dangling) nodes := by
  have hlength := length_treeText hbn hbw hn hw depth fresh nodes
  have hnone : danglingCount (Node.preorder nodes) = 0 := by
    rw [heq] at hlength
    omega
  intro inner hmem hdangling
  exact List.countP_eq_zero.mp hnone inner hmem (decide_eq_true hdangling)

end Difference

theorem isWide_eq_iff (first second : Layout) :
    first.isWide = second.isWide ↔ (first.indent = "" ↔ second.indent = "") := by
  have hwide (layout : Layout) : layout.isWide = false ↔ layout.indent = "" := by
    rw [isWide, Bool.not_eq_false', String.isEmpty_iff]
  rw [← hwide first, ← hwide second]
  cases first.isWide <;> cases second.isWide <;> simp

theorem blankIndent_settings (settings : Settings) : settings.layout.BlankIndent := by
  intro c hc
  have hunit : c ∈ List.replicate settings.width settings.style.char := by
    simpa only [Settings.layout, Settings.unit, String.toList_ofList] using hc
  rw [List.eq_of_mem_replicate hunit]
  cases settings.style with
  | spaces => exact Or.inl rfl
  | tabs => exact Or.inr rfl

/-- Which indents give the same document up to spaces and tabs, and with it the same lines: any two
that show, any two that do not, and for a tree without dangling elements any two at all. -/
theorem withoutBlanks_markup_eq_iff {first second : Layout} (hf : first.BlankIndent)
    (hs : second.BlankIndent) (nodes : List Node) (depth : Nat) (fresh : Bool) :
    withoutBlanks (first.treeMarkup nodes depth fresh).text =
        withoutBlanks (second.treeMarkup nodes depth fresh).text ↔
      (first.indent = "" ↔ second.indent = "") ∨
        ∀ inner ∈ Node.preorder nodes, ¬ inner.Dangling := by
  rw [treeMarkup_eq, treeMarkup_eq, ← isWide_eq_iff]
  constructor
  · intro heq
    change withoutBlanks (first.treeText depth fresh nodes) =
      withoutBlanks (second.treeText depth fresh nodes) at heq
    -- If only one of the indents shows, the two renderings must not differ in length.
    cases hwf : first.isWide <;> cases hws : second.isWide
    · exact Or.inl rfl
    · exact Or.inr (not_dangling_of_eq hf hs hwf hws heq)
    · exact Or.inr (not_dangling_of_eq hs hf hws hwf heq.symm)
    · exact Or.inl rfl
  · intro hagree
    exact withoutBlanks_treeText_eq hf hs depth fresh nodes hagree

/-- A paragraph and an empty text in a division: tabs and spaces give the same lines, but without an
indent there is one line less. -/
theorem withoutBlanks_markup_of_settings :
    let nodes : List Node := [.element ⟨"div", .empty,
      [.element ⟨"p", .empty, [], false, false, true⟩, .text (.plain "")], false, false, true⟩]
    let tabs := Settings.layout { width := 1, style := .tabs }
    let spaces := Settings.layout { width := 4 }
    let flat := Settings.layout { width := 0 }
    tabs.BlankIndent ∧ spaces.BlankIndent ∧ flat.BlankIndent ∧
    withoutBlanks (tabs.treeMarkup nodes 0 true).text =
      withoutBlanks (spaces.treeMarkup nodes 0 true).text ∧
    withoutBlanks (tabs.treeMarkup nodes 0 true).text ≠
      withoutBlanks (flat.treeMarkup nodes 0 true).text := by
  intro nodes tabs spaces flat
  have htabs : tabs.BlankIndent := blankIndent_settings _
  have hspaces : spaces.BlankIndent := blankIndent_settings _
  have hflat : flat.BlankIndent := blankIndent_settings _
  refine ⟨htabs, hspaces, hflat, ?_, ?_⟩
  · apply (withoutBlanks_markup_eq_iff htabs hspaces nodes 0 true).mpr
    left
    decide
  · intro heq
    rcases (withoutBlanks_markup_eq_iff htabs hflat nodes 0 true).mp heq with hindents | hdangling
    · exact absurd hindents (by decide)
    · exact absurd hdangling (by decide)

/-- Not all indents of spaces and tabs give the same document: without an indent, a division with an
empty text in it is a line shorter. -/
theorem not_every_indent_alike : ¬ ∀ (first second : Layout) (nodes : List Node) (depth : Nat)
    (fresh : Bool), first.BlankIndent → second.BlankIndent →
    withoutBlanks (first.treeMarkup nodes depth fresh).text =
      withoutBlanks (second.treeMarkup nodes depth fresh).text := by
  intro hall
  have heq := hall ⟨""⟩ ⟨"  "⟩
    [.element ⟨"div", .empty, [.text (.plain "")], false, false, true⟩] 0 true (by decide) (by decide)
  rw [treeMarkup_eq, treeMarkup_eq] at heq
  have hnone := not_dangling_of_eq (by decide) (by decide) rfl rfl heq
  have hdangling : Element.Dangling ⟨"div", .empty, [.text (.plain "")], false, false, true⟩ := by
    decide
  exact hnone _ List.mem_cons_self hdangling

end Layout

end HtmlDoc
