import HtmlDoc.Proofs.Layout.Lines
import HtmlDoc.Proofs.Tree.Slots

/-!
Fresh lines: where block elements start. A level of a tree that stands on a line of its own stays on
fresh lines as long as only elements are written, although an inline element does not end its line.
Main statement: a block element, at the top or inside, starts a line with the indentation of its depth,
except right behind an inline element on such a level; there it never does.
-/

namespace HtmlDoc

namespace Slot

/-- Whether the level of the slot stands on a line of its own: `fresh` says so of the top, and inside
an element it depends on the element. -/
def onFreshLevel (fresh : Bool) : Slot → Bool
  | top _ _ => fresh
  | inside _ parent inner _ => inner.onFreshLevel (!parent.inline)

/-- What is written before an element in the slot. Of the element itself this needs to know only
whether it is inline. -/
def before (layout : Layout) (depth : Nat) (fresh inline : Bool) : Slot → String
  | top left _ =>
    layout.treeText depth fresh left ++
      layout.lead depth (Layout.freshAfter fresh left) inline
  | inside left parent inner _ =>
    layout.treeText depth fresh left ++
      layout.lead depth (Layout.freshAfter fresh left) parent.inline ++
      openingTag parent.tag parent.attrs ++ (if parent.inline then "" else "\n") ++
      inner.before layout (depth + 1) (!parent.inline) inline

/-- The slot comes right behind an inline element, with nothing but elements before it on a level that
stands on a line of its own. -/
structure BehindInline (fresh : Bool) (slot : Slot) : Prop where
  level : slot.onFreshLevel fresh = true
  siblings : ∃ elements : List Element, slot.siblings = elements.map .element ∧
    ∃ last ∈ elements.getLast?, last.inline = true

theorem behindInline_inside {fresh : Bool} {left right : List Node} {parent : Element}
    {inner : Slot} : (inside left parent inner right).BehindInline fresh ↔
      inner.BehindInline (!parent.inline) :=
  ⟨fun h => ⟨h.level, h.siblings⟩, fun h => ⟨h.level, h.siblings⟩⟩

end Slot

namespace Layout

variable {layout : Layout}

/-- What has been written is the indentation of a depth, and before it nothing or whole lines. -/
def StartsLine (layout : Layout) (depth : Nat) (before : String) : Prop :=
  before = layout.indentation depth ∨
    ∃ lines, before = lines ++ "\n" ++ layout.indentation depth

theorem lineEnd_eq_empty {text : String} :
    lineEnd text = "" ↔ text = "" ∨ ∃ lines, text = lines ++ "\n" := by
  rw [lineEnd_eq]
  constructor
  · intro h
    split at h
    · rename_i hor
      refine hor.imp_right fun hlast => ?_
      obtain ⟨lines, hlines⟩ := List.getLast?_eq_some_iff.mp hlast
      refine ⟨String.ofList lines, ?_⟩
      rw [← String.toList_inj, hlines, String.toList_append, String.toList_ofList]
      rfl
    · exact absurd h (by decide)
  · rintro (rfl | ⟨lines, rfl⟩)
    · rfl
    · rw [String.toList_append]
      simp

theorem lineEnd_line (lines : String) : lineEnd (lines ++ "\n") = "" :=
  lineEnd_eq_empty.mpr (Or.inr ⟨lines, rfl⟩)

theorem startsLine_indentation (depth : Nat) (out : String) :
    layout.StartsLine depth (out ++ layout.indentation depth) ↔ lineEnd out = "" := by
  rw [StartsLine, lineEnd_eq_empty]
  constructor
  · rintro (h | ⟨lines, h⟩)
    · left
      exact (String.append_left_inj _).mp (h.trans String.empty_append.symm)
    · right
      exact ⟨lines, (String.append_left_inj _).mp h⟩
  · rintro (rfl | ⟨lines, rfl⟩)
    · exact Or.inl String.empty_append
    · exact Or.inr ⟨lines, rfl⟩

theorem freshAfter_eq_true {fresh : Bool} {nodes : List Node} :
    freshAfter fresh nodes = true ↔
      fresh = true ∧ ∃ elements : List Element, nodes = elements.map .element := by
  induction nodes with
  | nil => simp [freshAfter]
  | cons node nodes ih =>
    cases node with
    | text fragment =>
      refine iff_of_false (by simp [freshAfter]) ?_
      rintro ⟨-, elements, hnodes⟩
      cases elements <;> cases hnodes
    | element child =>
      rw [freshAfter, ih]
      refine and_congr_right fun _ => ?_
      constructor
      · rintro ⟨elements, rfl⟩
        exact ⟨child :: elements, rfl⟩
      · rintro ⟨elements, hnodes⟩
        cases elements with
        | nil => cases hnodes
        | cons first elements =>
          cases hnodes
          exact ⟨elements, rfl⟩

theorem lineEnd_elements {out : String} (hout : lineEnd out = "") (depth : Nat) (fresh : Bool)
    (elements : List Element) :
    lineEnd (out ++ layout.treeText depth fresh (elements.map .element)) = "" ↔
      ∀ last ∈ elements.getLast?, last.inline = false := by
  rcases elements.eq_nil_or_concat with rfl | ⟨earlier, last, rfl⟩
  · refine iff_of_true ?_ (fun last hlast => absurd hlast (by simp))
    rw [List.map_nil, treeText, String.append_empty]
    exact hout
  · have hlast (fresh : Bool) : layout.treeText depth fresh [.element last] =
        layout.elementText depth fresh last := by
      rw [treeText, treeText, String.append_empty]
    rw [List.concat_eq_append, List.map_append, treeText_append, List.map_singleton, hlast,
      ← String.append_assoc, lineEnd_elementText, List.getLast?_concat]
    cases hinline : last.inline <;> simp [hinline]

theorem elementText_opens (layout : Layout) (depth : Nat) (fresh : Bool) (element : Element) :
    ∃ rest, layout.elementText depth fresh element =
      layout.lead depth fresh element.inline ++ openingTag element.tag element.attrs ++ rest := by
  obtain ⟨tag, attrs, children, void, inline, closed⟩ := element
  simp only [elementText]
  split
  · exact ⟨_, String.append_assoc⟩
  split
  · exact ⟨_, String.append_assoc⟩
  · simp only [String.append_assoc]
    exact ⟨_, rfl⟩

/-- Behind the opening tag of an element with children come the children, on a line of their own if
the element is a block. -/
theorem elementText_opens_children (layout : Layout) (depth : Nat) (fresh : Bool)
    {element : Element} (hchildren : element.children ≠ []) :
    ∃ rest, layout.elementText depth fresh element =
      layout.lead depth fresh element.inline ++ openingTag element.tag element.attrs ++
        (if element.inline then "" else "\n") ++
        layout.treeText (depth + 1) (!element.inline) element.children ++ rest := by
  obtain ⟨tag, attrs, children, void, inline, closed⟩ := element
  have hempty : children.isEmpty = false := by
    cases children with
    | nil => exact absurd rfl hchildren
    | cons node nodes => rfl
  cases inline with
  | true =>
    simp only [elementText, if_true, String.append_empty]
    exact ⟨_, rfl⟩
  | false =>
    simp only [elementText, Bool.false_eq_true, if_false, hempty, Bool.not_false]
    simp only [String.append_assoc]
    exact ⟨_, rfl⟩

theorem treeText_fill (layout : Layout) (depth : Nat) (fresh : Bool) (element : Element)
    (slot : Slot) : ∃ rest, layout.treeText depth fresh (slot.fill element) =
      slot.before layout depth fresh element.inline ++ openingTag element.tag element.attrs ++
        rest := by
  induction slot generalizing depth fresh with
  | top left right =>
    obtain ⟨rest, hrest⟩ := elementText_opens layout depth (freshAfter fresh left) element
    rw [Slot.fill, Slot.before, treeText_append, treeText, hrest]
    simp only [String.append_assoc]
    exact ⟨_, rfl⟩
  | inside left parent inner right ih =>
    have hchildren : ({ parent with children := inner.fill element } : Element).children ≠ [] :=
      inner.fill_ne_nil element
    obtain ⟨rest, hrest⟩ := elementText_opens_children layout depth (freshAfter fresh left)
      hchildren
    obtain ⟨rest', hrest'⟩ := ih (depth + 1) (!parent.inline)
    rw [Slot.fill, Slot.before, treeText_append, treeText, hrest, hrest']
    simp only [String.append_assoc]
    exact ⟨_, rfl⟩

/-- A block element starts a line wherever one is open to it, except behind an inline element. What
has been written before the tree must leave a fresh line if the tree is to stand on one. -/
theorem startsLine_before_iff {depth : Nat} {fresh : Bool} {out : String}
    (hout : fresh = true → lineEnd out = "") (slot : Slot) :
    layout.StartsLine (depth + slot.level) (out ++ slot.before layout depth fresh false) ↔
      ¬ slot.BehindInline fresh := by
  induction slot generalizing depth fresh out with
  | top left right =>
    rw [Slot.level, Nat.add_zero, Slot.before, lead]
    cases hfresh : freshAfter fresh left with
    | false =>
      -- A line is started before the element whatever has been written.
      refine iff_of_true ?_ ?_
      · rw [if_neg (by decide), if_neg (by decide), ← String.append_assoc, ← String.append_assoc,
          startsLine_indentation]
        exact lineEnd_line _
      · rintro ⟨hlevel, elements, hleft, -⟩
        have htrue : freshAfter fresh left = true :=
          freshAfter_eq_true.mpr ⟨hlevel, elements, hleft⟩
        rw [hfresh] at htrue
        cases htrue
    | true =>
      obtain ⟨hlevel, elements, rfl⟩ := freshAfter_eq_true.mp hfresh
      rw [if_pos rfl, ← String.append_assoc, startsLine_indentation,
        lineEnd_elements (hout hlevel)]
      constructor
      · rintro hblock ⟨-, others, hleft, last, hlast, hinline⟩
        have hsame : elements = others :=
          (List.map_inj_right fun _ _ => Node.element.inj).mp hleft
        rw [← hsame] at hlast
        rw [hblock last hlast] at hinline
        cases hinline
      · intro hnot last hlast
        rw [Bool.eq_false_iff]
        intro hinline
        exact hnot ⟨hlevel, elements, rfl, last, hlast, hinline⟩
  | inside left parent inner right ih =>
    have hline : (!parent.inline) = true → lineEnd (out ++ (layout.treeText depth fresh left ++
        layout.lead depth (freshAfter fresh left) parent.inline ++
        openingTag parent.tag parent.attrs ++ (if parent.inline then "" else "\n"))) = "" := by
      intro hblock
      rw [Bool.not_eq_true'] at hblock
      rw [if_neg (by rw [hblock]; decide), ← String.append_assoc]
      exact lineEnd_line _
    have hlevel : depth + (inner.level + 1) = depth + 1 + inner.level := by omega
    rw [Slot.level, Slot.before, hlevel, ← String.append_assoc, ih hline,
      Slot.behindInline_inside]

/-- Where block elements start. Each element of a tree fills a slot, and its opening tag is written
behind what comes before that slot. A block element starts a line there, with the indentation of its
depth, unless it comes right behind an inline element on a level that stands on a line of its own and
has no text so far; in that case it does not start a line. -/
theorem block_startsLine_iff (layout : Layout) (nodes : List Node) (depth : Nat) (fresh : Bool) :
    (∀ element ∈ Node.preorder nodes, ∃ slot : Slot, slot.fill element = nodes) ∧
    ∀ (slot : Slot) (element : Element), slot.fill element = nodes → element.inline = false →
      (∃ rest, (layout.treeMarkup nodes depth fresh).text =
        slot.before layout depth fresh false ++ openingTag element.tag element.attrs ++ rest) ∧
      (layout.StartsLine (depth + slot.level) (slot.before layout depth fresh false) ↔
        ¬ slot.BehindInline fresh) := by
  constructor
  · intro element hmem
    exact Node.mem_preorder_iff_exists_slot.mp hmem
  · intro slot element hfill hblock
    have hempty : fresh = true → lineEnd "" = "" := fun _ => rfl
    have hstarts : layout.StartsLine (depth + slot.level)
        ("" ++ slot.before layout depth fresh false) ↔ ¬ slot.BehindInline fresh :=
      startsLine_before_iff hempty slot
    rw [String.empty_append] at hstarts
    refine ⟨?_, hstarts⟩
    obtain ⟨rest, hrest⟩ := treeText_fill layout depth fresh element slot
    refine ⟨rest, ?_⟩
    rw [treeMarkup_eq, ← hfill, ← hblock]
    exact hrest

/-- A paragraph behind a text starts a line, and a heading behind an inline element does not. -/
theorem block_startsLine_mixed :
    let em : Element := ⟨"em", .empty, [], false, true, true⟩
    let paragraph : Element := ⟨"p", .empty, [], false, false, true⟩
    let part : Element :=
      ⟨"section", .empty, [.text (.plain "x"), .element paragraph], false, false, true⟩
    let heading : Element := ⟨"h1", .empty, [], false, false, true⟩
    let nodes : List Node := [.element part, .element em, .element heading]
    ∃ inner last : Slot, inner.fill paragraph = nodes ∧ last.fill heading = nodes ∧
      inner.before {} 0 true false = "<section>\n  x\n  " ∧
      StartsLine {} 1 (inner.before {} 0 true false) ∧
      ¬ StartsLine {} 0 (last.before {} 0 true false) := by
  intro em paragraph part heading nodes
  obtain ⟨-, hslots⟩ := block_startsLine_iff {} nodes 0 true
  let inner : Slot :=
    .inside [] part (.top [.text (.plain "x")] []) [.element em, .element heading]
  let last : Slot := .top [.element part, .element em] []
  refine ⟨inner, last, rfl, rfl, by decide, ?_, ?_⟩
  · apply (hslots inner paragraph rfl rfl).2.mpr
    rintro ⟨-, elements, htext, -⟩
    cases elements <;> cases htext
  · have hbehind : last.BehindInline true := ⟨rfl, [part, em], rfl, em, rfl, rfl⟩
    intro hstarts
    exact (hslots last heading rfl rfl).2.mp hstarts hbehind

/-- Not every block element starts a line: a heading behind an inline element stands on its line. -/
theorem not_every_block_startsLine : ¬ ∀ (layout : Layout) (slot : Slot) (element : Element)
    (depth : Nat) (fresh : Bool), element.inline = false →
    layout.StartsLine (depth + slot.level) (slot.before layout depth fresh element.inline) := by
  intro hall
  have hstarts := hall {} (.top [.element ⟨"em", .empty, [], false, true, true⟩] [])
    ⟨"h1", .empty, [], false, false, true⟩ 0 true rfl
  have hbefore :
      Slot.before {} 0 true false (.top [.element ⟨"em", .empty, [], false, true, true⟩] []) =
        "<em></em>" ++ Layout.indentation {} 0 := by decide
  -- Nothing is indented at the top, and what has been written does not end a line.
  rw [hbefore] at hstarts
  have hended := (startsLine_indentation 0 "<em></em>").mp hstarts
  rw [lineEnd_eq] at hended
  exact absurd hended (by decide)

end Layout

end HtmlDoc
