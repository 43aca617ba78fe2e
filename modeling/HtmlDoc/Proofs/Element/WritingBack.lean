import HtmlDoc.Edit
import HtmlDoc.Proofs.Element.Members
import HtmlDoc.Proofs.Layout.Composition

/-!
Writing back: the children of an element are read by name, and set by name to what was read. An
assigned text is escaped once if it is plain, and at the top level nothing stands around it. Main
statement: the element still reads the same, and after that reading and writing change nothing.
-/

namespace HtmlDoc

/-- Markup is not escaped again. -/
theorem Fragment.escapeOnce_of_trusted {fragment : Fragment} (h : fragment.trusted = true) :
    fragment.escapeOnce = fragment := by
  obtain ⟨text, trusted⟩ := fragment
  obtain rfl : trusted = true := h
  rfl

/-- A text that is the whole tree is written behind the indentation of its place. -/
theorem Layout.treeMarkup_text (layout : Layout) (piece : Fragment) (depth : Nat) (fresh : Bool) :
    layout.treeMarkup [.text piece] depth fresh =
      .markup ((if fresh then layout.indentation depth else "") ++ piece.asMarkup) := by
  rw [treeMarkup_eq, treeText, treeText, String.append_empty]

/-- The operations that read the children by name, or set them by name to this text. -/
inductive ElementEdit.Rewrites (snapshot : Fragment) : ElementEdit → Prop
  | read : Rewrites snapshot (.callMember "html" [] false)
  | write (block : Bool) : Rewrites snapshot (.callMember "html=" [.value (.text snapshot)] block)

namespace Element

/-- Reading the children by name answers `snapshot` and changes nothing; setting them by name to
this answer succeeds and leaves `after`. -/
structure WritesBack (element : Element) (snapshot : Fragment) (after : Element) : Prop where
  reads : element.callMember "html" [] false = (.ok (some (.text snapshot)), element)
  writes : ∀ block : Bool,
    element.callMember "html=" [.value (.text snapshot)] block = (.ok none, after)

theorem inner_eq (element : Element) :
    element.inner = Layout.treeMarkup {} element.children 0 true := by
  rw [inner, Layout.treeMarkup_eq]
  rfl

theorem writesBack_inner (element : Element) :
    element.WritesBack element.inner (element.assignChildren (.text element.inner)) where
  reads := by
    have hread : element.Accesses "html" [] false (some (.text element.inner)) element :=
      .getChildren
    exact hread.callMember_eq
  writes block := by
    have hwrite : element.Accesses "html=" [.value (.text element.inner)] block none
        (element.assignChildren (.text element.inner)) := .setChildren block (.text element.inner)
    exact hwrite.callMember_eq

/-- What is read after a text was assigned is this text as markup: at the top level no indentation
is written before it. -/
theorem inner_assignChildren_text (element : Element) (fragment : Fragment) :
    (element.assignChildren (.text fragment)).inner = fragment.escapeOnce := by
  rw [inner_eq]
  calc
    Layout.treeMarkup {} [.text fragment.escapeOnce] 0 true
        = .markup (Layout.indentation {} 0 ++ fragment.escapeOnce.asMarkup) :=
          Layout.treeMarkup_text {} fragment.escapeOnce 0 true
    _ = .markup fragment.escapeOnce.asMarkup := congrArg Fragment.markup String.empty_append
    _ = fragment.escapeOnce := rfl

/-- Where writing back changes nothing, it changes nothing however often it is done. -/
theorem WritesBack.runAll {element : Element} {snapshot : Fragment}
    (h : element.WritesBack snapshot element) {edits : List ElementEdit}
    (hedits : ∀ edit ∈ edits, edit.Rewrites snapshot) :
    ElementEdit.runAll edits element = (.ok (), element) := by
  induction edits with
  | nil => rfl
  | cons edit edits ih =>
    obtain ⟨hedit, hrest⟩ := List.forall_mem_cons.mp hedits
    have hrun : ∃ reply, edit.run element = (.ok reply, element) := by
      cases hedit with
      | read =>
        refine ⟨.value (some (.text snapshot)), ?_⟩
        rw [ElementEdit.run, h.reads]
        rfl
      | write block =>
        refine ⟨.value none, ?_⟩
        rw [ElementEdit.run, h.writes block]
        rfl
    obtain ⟨reply, hrun⟩ := hrun
    rw [ElementEdit.runAll, hrun]
    exact ih hrest

/-- Writing the snapshot of the children back is stable. The children of every element are read as
markup, which is what they are rendered to at the top level, and setting them to it changes nothing
but the children: they are this markup alone, and are written as it stands at every place, behind
the indentation of the place. So the element reads the same afterwards, and writing back again, once
or in any number of turns, leaves it as it is. -/
theorem writesBack_stable (element : Element) : ∃ snapshot after,
    element.WritesBack snapshot after ∧
    snapshot = Layout.treeMarkup {} element.children 0 true ∧ snapshot.trusted = true ∧
    after.inner = snapshot ∧ after = { element with children := [.text snapshot] } ∧
    (∀ (layout : Layout) (depth : Nat) (fresh : Bool),
      layout.treeMarkup after.children depth fresh =
        .markup ((if fresh then layout.indentation depth else "") ++ snapshot.text)) ∧
    after.WritesBack snapshot after ∧
    ∀ edits : List ElementEdit, (∀ edit ∈ edits, edit.Rewrites snapshot) →
      ElementEdit.runAll edits after = (.ok (), after) := by
  have htrusted : element.inner.trusted = true := rfl
  have hkept : element.inner.escapeOnce = element.inner := Fragment.escapeOnce_of_trusted htrusted
  have hchildren : element.assignChildren (.text element.inner) =
      { element with children := [.text element.inner] } := by
    rw [assignChildren, Children.toNodes, hkept]
  have hinner : (element.assignChildren (.text element.inner)).inner = element.inner := by
    rw [inner_assignChildren_text, hkept]
  -- The second time the same text is assigned, in place of itself.
  have hagain := (element.assignChildren (.text element.inner)).writesBack_inner
  rw [hinner] at hagain
  refine ⟨element.inner, _, element.writesBack_inner, element.inner_eq, htrusted, hinner, hchildren,
    ?written, hagain, fun edits hedits => hagain.runAll hedits⟩
  case written =>
    intro layout depth fresh
    rw [hchildren, Layout.treeMarkup_text, Fragment.asMarkup, if_pos htrusted]

/-- A list with a plain text in its item and markup behind it, read and written in turns. -/
theorem writesBack_stable_list :
    let item : Element := ⟨"li", .empty, [.text (.plain "a < b")], false, true, true⟩
    let list : Element := ⟨"ul", .empty, [.element item, .text (.markup "&lt;")], false, false, true⟩
    let snapshot : Fragment := .markup "<li>a &lt; b</li>&lt;"
    ∃ after, list.WritesBack snapshot after ∧ after.inner = snapshot ∧
      Layout.treeMarkup {} after.children 2 true = .markup "    <li>a &lt; b</li>&lt;" ∧
      ElementEdit.runAll [.callMember "html=" [.value (.text snapshot)] true,
        .callMember "html" [] false] after = (.ok (), after) := by
  intro item list snapshot
  obtain ⟨found, after, hback, hfound, -, hinner, -, hwritten, -, hturns⟩ := writesBack_stable list
  have hsnapshot : found = snapshot := by
    rw [hfound]
    decide
  subst hsnapshot
  refine ⟨after, hback, hinner, ?written, hturns _ ?edits⟩
  case written =>
    rw [hwritten]
    decide
  case edits =>
    rw [List.forall_mem_cons, List.forall_mem_singleton]
    exact ⟨.write true, .read⟩

/-- The first time the element itself may be written in another way: an empty element has a text
afterwards, so the closing tag of a break is written. -/
example : (Element.callMember ⟨"br", .empty, [], true, false, false⟩ "html=" [.value (.text .empty)]
    false).2.text = "\n<br>\n  \n</br>\n" := by
  cbv

end Element

end HtmlDoc
