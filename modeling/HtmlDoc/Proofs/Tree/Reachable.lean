import HtmlDoc.Proofs.Builder.Points

/-!
Reachable elements: those that the interface can make, by any history of constructions, changes,
calls by name and builder programs, from elements that were made in the same way. Main statement: a
property of elements that looks at no children and that every single operation keeps holds
throughout every reachable element.
-/

namespace HtmlDoc

/-- The elements that the interface can make. Whatever an operation is given has to be reachable
itself; texts, keys, values and errors are free. -/
inductive Element.Reachable : Element → Prop
  | ofTag {tag : String} {element : Element} : Element.ofTag tag = .ok element → Reachable element
  | compose {tag : String} {content : Content} {attrs : Attributes} {element : Element} :
      (∀ given ∈ content.elements, Reachable given) →
      Element.compose tag content attrs = .ok element → Reachable element
  | edit {element : Element} (edit : ElementEdit) : (∀ given ∈ edit.elements, Reachable given) →
      Reachable element → Reachable (edit.run element).2
  | child {parent element : Element} : Reachable parent →
      element ∈ Node.elements parent.children → Reachable element
  /-- Out of the tree of a builder, after a program. -/
  | built {layout : Layout} {lines : List Line} {element : Element} :
      (∀ given ∈ Line.elements lines, Reachable given) →
      element ∈ Node.elements (Line.runAll (.empty layout) lines).2.root → Reachable element
  /-- Open in a builder, at any point of a program. -/
  | opened {layout : Layout} {lines : List Line} {point : Point} {element : Element} :
      (∀ given ∈ Line.elements lines, Reachable given) →
      point ∈ Line.points (.empty layout) lines → element ∈ point.now.opened → Reachable element

theorem Element.Reachable.setAttr {element changed : Element} {name : String} {value : AttrValue}
    {previous : Option AttrValue} (h : element.Reachable)
    (hs : element.setAttr name value = .ok (previous, changed)) : changed.Reachable := by
  have hrun : ((ElementEdit.setAttr name value).run element).2 = changed := by
    rw [ElementEdit.run, hs]
    rfl
  rw [← hrun]
  exact .edit _ (fun _ hg => absurd hg List.not_mem_nil) h

theorem Element.Reachable.bindAttr {element changed : Element} {key : String} {value : AttrValue}
    {previous : Option AttrValue} (h : element.Reachable)
    (hb : element.bindAttr key value = .ok (previous, changed)) : changed.Reachable := by
  have hrun : ((ElementEdit.bindAttr key value).run element).2 = changed := by
    rw [ElementEdit.run, hb]
    rfl
  rw [← hrun]
  exact .edit _ (fun _ hg => absurd hg List.not_mem_nil) h

/-- A property of elements that looks at no children and that each operation keeps. -/
structure Element.Kept (P : Element → Prop) : Prop where
  ofTag : ∀ {tag element}, Element.ofTag tag = .ok element → P element
  children : ∀ {element} nodes, P element → P { element with children := nodes }
  bind : ∀ {element key} value, Name.isKey key = true → P element →
    P { element with attrs := (element.attrs.insert key value).2 }
  access : ∀ {element name} value, Name.isAccessorName name = true → P element →
    P { element with attrs := (element.attrs.insert (Name.lower name) value).2 }
  unbind : ∀ {element} key, P element →
    P { element with attrs := (element.attrs.remove key).2 }
  inline : ∀ {element}, P element → P element.makeInline
  closed : ∀ {element}, P element → P element.makeClosed

variable {P : Element → Prop}

namespace Element

theorem Throughout.of_children {element changed : Element} (h : element.Throughout P)
    (hc : changed.children = element.children) (hp : P changed) : changed.Throughout P := by
  rw [throughout_iff, hc]
  exact ⟨hp, ((throughout_iff element).mp h).2⟩

theorem Throughout.own {element : Element} (h : element.Throughout P) : P element :=
  ((throughout_iff element).mp h).1

namespace Kept

theorem throughout_ofTag (hk : Kept P) {tag : String} {element : Element}
    (h : Element.ofTag tag = .ok element) : element.Throughout P := by
  have hc : element.children = [] := by rw [(ofTag_eq_ok.mp h).2]
  rw [throughout_iff, hc]
  exact ⟨hk.ofTag h, Node.throughout_nil⟩

theorem throughout_children (hk : Kept P) {element : Element} {nodes : List Node}
    (h : element.Throughout P) (hn : Node.Throughout P nodes) :
    Element.Throughout P { element with children := nodes } := by
  rw [throughout_iff]
  exact ⟨hk.children nodes h.own, hn⟩

theorem throughout_bindAttrs (hk : Kept P) {element changed : Element} {entries : Entries}
    (h : element.Throughout P) (he : element.bindAttrs entries = .ok changed) :
    changed.Throughout P := by
  induction entries generalizing element with
  | nil =>
    cases he
    exact h
  | cons entry entries ih =>
    rw [Element.bindAttrs] at he
    split at he
    · rename_i hb
      obtain ⟨hkey, -, hc⟩ := bindAttr_eq_ok.mp hb
      refine ih (h.of_children (by rw [hc]) ?_) he
      rw [hc]
      exact hk.bind entry.2 hkey h.own
    · cases he

theorem throughout_setAttr (hk : Kept P) {element changed : Element} {name : String}
    {value : AttrValue} {previous : Option AttrValue} (h : element.Throughout P)
    (he : element.setAttr name value = .ok (previous, changed)) : changed.Throughout P := by
  obtain ⟨hname, -, hc⟩ := setAttr_eq_ok.mp he
  refine h.of_children (by rw [hc]) ?_
  rw [hc]
  exact hk.access value hname h.own

theorem throughout_fill (hk : Kept P) {element changed : Element} {content : Content}
    (hg : ∀ given ∈ content.elements, given.Throughout P) (h : element.Throughout P)
    (he : element.fill content = .ok changed) : changed.Throughout P := by
  cases content with
  | empty =>
    cases he
    exact h
  | text fragment =>
    cases he
    exact hk.throughout_children h (Node.throughout_text _)
  | element child =>
    cases he
    exact hk.throughout_children h
      ((Node.throughout_element child).mpr (hg child List.mem_cons_self))
  | tree nodes =>
    cases he
    exact hk.throughout_children h ((Node.throughout_iff nodes).mpr hg)
  | attrs attrs => exact hk.throughout_bindAttrs h he

theorem throughout_compose (hk : Kept P) {tag : String} {content : Content} {attrs : Attributes}
    {element : Element} (hg : ∀ given ∈ content.elements, given.Throughout P)
    (h : Element.compose tag content attrs = .ok element) : element.Throughout P := by
  obtain ⟨fresh, filled, ht, hf, hb⟩ := compose_eq_ok.mp h
  exact hk.throughout_bindAttrs (hk.throughout_fill hg (hk.throughout_ofTag ht) hf) hb

theorem throughout_assignChildren (hk : Kept P) {element : Element} {children : Children}
    (hg : ∀ given ∈ children.elements, given.Throughout P) (h : element.Throughout P) :
    (element.assignChildren children).Throughout P := by
  cases children with
  | text fragment => exact hk.throughout_children h (Node.throughout_text _)
  | tree items => exact hk.throughout_children h ((Node.throughout_iff items).mpr hg)
  | nodes items => exact hk.throughout_children h ((Node.throughout_iff items).mpr hg)

theorem throughout_callMember (hk : Kept P) {element : Element} (member : String)
    (args : List Arg) (block : Bool)
    (hg : ∀ given ∈ args.flatMap Arg.elements, given.Throughout P) (h : element.Throughout P) :
    (element.callMember member args block).2.Throughout P := by
  -- A call changes nothing, or it writes children, or it writes an attribute.
  obtain hc | ⟨previous, hw⟩ := callMember_changes element member args block
  · rw [hc]
    exact h
  · obtain ⟨arg, rfl, ⟨-, children, hch, -, hc⟩ | ⟨-, value, -, hs⟩⟩ := writeMember_eq_ok.mp hw
    · rw [hc]
      have he : children.elements = [arg].flatMap Arg.elements := by
        rw [List.flatMap_singleton]
        exact Arg.elements_toChildren hch
      exact hk.throughout_assignChildren (by rw [he]; exact hg) h
    · exact hk.throughout_setAttr h hs

theorem throughout_treeEdit (hk : Kept P) (edit : TreeEdit) {tree : List Node}
    (hg : ∀ given ∈ edit.elements, given.Throughout P) (h : Node.Throughout P tree) :
    Node.Throughout P (edit.run tree).2 := by
  cases edit with
  | push node => exact Node.throughout_append.mpr ⟨h, (Node.throughout_iff _).mpr hg⟩
  | extend nodes => exact Node.throughout_append.mpr ⟨h, (Node.throughout_iff _).mpr hg⟩
  | replace nodes => exact (Node.throughout_iff _).mpr hg
  | wrap tag attrs =>
    -- The old tree is the content of the new element, and stays as it is if there is none.
    rw [TreeEdit.run]
    split
    · rename_i hc
      have ht : ∀ given ∈ (Content.tree tree).elements, given.Throughout P :=
        (Node.throughout_iff tree).mp h
      exact (Node.throughout_element _).mpr (hk.throughout_compose ht hc)
    · exact h
  | isEmpty => exact h
  | items => exact h
  | render layout depth fresh => exact h

theorem throughout_edit (hk : Kept P) (edit : ElementEdit) {element : Element}
    (hg : ∀ given ∈ edit.elements, given.Throughout P) (h : element.Throughout P) :
    (edit.run element).2.Throughout P := by
  cases edit with
  | setAttr name value =>
    rw [ElementEdit.run]
    cases hs : element.setAttr name value with
    | ok changed => exact hk.throughout_setAttr h hs
    | error error => exact h
  | bindAttr key value =>
    rw [ElementEdit.run]
    cases hb : element.bindAttr key value with
    | ok changed =>
      -- Binding one key is binding a list of one.
      have he : element.bindAttrs [(key, value)] = .ok changed.2 := by
        simp only [Element.bindAttrs, hb]
      exact hk.throughout_bindAttrs h he
    | error error => exact h
  | unbindAttr key => exact h.of_children rfl (hk.unbind key h.own)
  | assignChildren given => exact hk.throughout_assignChildren hg h
  | makeInline => exact h.of_children rfl (hk.inline h.own)
  | makeClosed => exact h.of_children rfl (hk.closed h.own)
  | children edit =>
    exact hk.throughout_children h
      (hk.throughout_treeEdit edit hg ((throughout_iff element).mp h).2)
  | callMember member args block => exact hk.throughout_callMember member args block hg h
  | getAttr name => exact h
  | inner => exact h
  | render layout depth fresh => exact h
  | fail error => exact h
  | state => exact h

theorem throughout_tagCall (hk : Kept P) {call : TagCall} {element : Element}
    (hg : ∀ given ∈ call.elements, given.Throughout P) (h : call.element = .ok element) :
    element.Throughout P := by
  obtain ⟨tag, content, attrs, hc, hsub⟩ := TagCall.exists_compose h
  exact hk.throughout_compose (fun given hgiven => hg given (hsub given hgiven)) hc

theorem throughout_withChild? (hk : Kept P) {element : Element} {node : Option Node}
    (h : element.Throughout P) (hn : Node.Throughout P node.toList) :
    (element.withChild? node).Throughout P := by
  cases node with
  | none => exact h
  | some node =>
    exact hk.throughout_children h
      (Node.throughout_append.mpr ⟨((throughout_iff element).mp h).2, hn⟩)

end Kept

end Element

-- What a builder program makes is followed through its meaning, where no stack is in the way.
mutual

theorem Call.throughout_meaning (hk : Element.Kept P) (layout : Layout) (root : List Node)
    (call : Call) (hg : ∀ given ∈ call.elements, given.Throughout P) :
    Node.Throughout P (call.meaning layout root).2.toList := by
  cases call with
  | push node => exact (Node.throughout_iff _).mpr hg
  | add call =>
    rw [Call.meaning]
    split
    · rename_i he
      exact (Node.throughout_element _).mpr (hk.throughout_tagCall hg he)
    · exact Node.throughout_nil
  | addWith call block =>
    simp only [Call.elements, List.forall_mem_append] at hg
    rw [Call.meaning]
    split
    · rename_i he
      exact (Node.throughout_element _).mpr (Action.throughout_blockMeaning hk layout root
        (hk.throughout_tagCall hg.1 he) block hg.2)
    · exact Node.throughout_nil
  | _ => exact Node.throughout_nil

theorem Action.throughout_meaning (hk : Element.Kept P) (layout : Layout) (root : List Node)
    {element : Element} (h : element.Throughout P) (action : Action)
    (hg : ∀ given ∈ action.elements, given.Throughout P) :
    (action.meaning layout root element).2.Throughout P := by
  cases action with
  | call call => exact hk.throughout_withChild? h (Call.throughout_meaning hk layout root call hg)
  | edit edit => exact hk.throughout_edit edit hg h
  | element => exact h
  | assign assigned => exact hg assigned List.mem_cons_self
  | attempt action => exact Action.throughout_meaning hk layout root h action hg

theorem Action.throughout_blockMeaning (hk : Element.Kept P) (layout : Layout) (root : List Node)
    {element : Element} (h : element.Throughout P) (block : List Action)
    (hg : ∀ given ∈ Action.blockElements block, given.Throughout P) :
    (Action.blockMeaning layout root element block).value.Throughout P := by
  cases block with
  | nil => exact h
  | cons action actions =>
    simp only [Action.blockElements, List.forall_mem_append] at hg
    have ha := Action.throughout_meaning hk layout root h action hg.1
    simp only [Action.blockMeaning]
    split
    · exact ha
    · exact Action.throughout_blockMeaning hk layout root ha actions hg.2

end

/-- The elements of a builder, open or in its tree, have the property throughout. -/
def Builder.Throughout (P : Element → Prop) (builder : Builder) : Prop :=
  Node.Throughout P builder.root ∧ ∀ element ∈ builder.opened, element.Throughout P

theorem Builder.Throughout.push? (hk : Element.Kept P) {builder : Builder}
    (h : builder.Throughout P) {node : Option Node} (hn : Node.Throughout P node.toList) :
    (builder.push? node).Throughout P := by
  obtain ⟨root, opened, layout⟩ := builder
  cases opened with
  | nil =>
    rw [Builder.push?_top]
    exact ⟨Node.throughout_append.mpr ⟨h.1, hn⟩, h.2⟩
  | cons parent outer =>
    rw [Builder.push?_innermost]
    have ho := List.forall_mem_cons.mp h.2
    exact ⟨h.1, List.forall_mem_cons.mpr ⟨hk.throughout_withChild? ho.1 hn, ho.2⟩⟩

theorem Call.throughout_run (hk : Element.Kept P) {builder : Builder} (h : builder.Throughout P)
    (call : Call) (hg : ∀ given ∈ call.elements, given.Throughout P) :
    (call.run builder).2.Throughout P := by
  rw [(Call.run_meaning builder call).2]
  exact h.push? hk (Call.throughout_meaning hk builder.layout builder.root call hg)

theorem Builder.throughout_invariant (hk : Element.Kept P) :
    Builder.Invariant (Element.Throughout P) fun _ builder => builder.Throughout P where
  opens hg he h := ⟨h.1, List.forall_mem_cons.mpr ⟨hk.throughout_tagCall hg he, h.2⟩⟩
  acts action hg h := by
    have ho := List.forall_mem_cons.mp h.2
    exact ⟨h.1, List.forall_mem_cons.mpr
      ⟨Action.throughout_meaning hk _ _ ho.1 action hg, ho.2⟩⟩
  calls call hg h := Call.throughout_run hk h call hg

/-- A property that each operation keeps holds throughout every reachable element. -/
theorem Element.Reachable.throughout (hk : Element.Kept P) {element : Element}
    (h : element.Reachable) : element.Throughout P := by
  have hempty (layout : Layout) : Builder.Throughout P (.empty layout) :=
    ⟨Node.throughout_nil, fun _ hm => absurd hm List.not_mem_nil⟩
  induction h with
  | ofTag ht => exact hk.throughout_ofTag ht
  | compose _ hc ih => exact hk.throughout_compose ih hc
  | edit edit _ _ ihg ih => exact hk.throughout_edit edit ihg ih
  | child _ hm ih => exact (Node.throughout_iff _).mp ((throughout_iff _).mp ih).2 _ hm
  | @built layout lines _ _ hm ih =>
    have hrun := Line.runAll_invariant (Builder.throughout_invariant hk) (hempty layout) lines ih
    exact (Node.throughout_iff _).mp hrun.1 _ hm
  | opened _ hp hm ih =>
    have hpoint := Line.points_invariant (Builder.throughout_invariant hk) (hempty _) _ ih _ hp
    exact hpoint.2.2 _ hm

end HtmlDoc
