import HtmlDoc.Proofs.Element.Construction
import HtmlDoc.Proofs.Layout.Closing

/-!
Categories of elements: what the tag decides when an element is made, and what is decided otherwise
later. The tag is looked up once. Whether the element is void stays as it was found then, and it runs
on in the line or has a closing tag because its tag said so or because it was told to, and neither is
taken back. Main statement: at any depth of a reachable element the tag is in lower case and the flags
agree with it, the flags tell what has been done to the element, and its closing tag is missing
exactly where the tag is void, there is no child and none was ever forced.
-/

namespace HtmlDoc

/-- The operation that an action runs on its element. -/
def Action.edit? : Action → Option ElementEdit
  | .edit made => some made
  | .attempt tried => tried.edit?
  | .call _ | .element | .assign _ => none

/-- Whether the action puts another element in the place of its element. -/
def Action.assigns : Action → Bool
  | .assign _ => true
  | .attempt tried => tried.assigns
  | .call _ | .edit _ | .element => false

namespace Element

/-- The elements that come straight from a constructor. -/
inductive Made : Element → Prop
  | ofTag {tag : String} {element : Element} : Element.ofTag tag = .ok element → Made element
  | compose {tag : String} {content : Content} {attrs : Attributes} {element : Element} :
      Element.compose tag content attrs = .ok element → Made element

/-- What becomes of an element in the course of its life, and which operations are run on it, in their
order. Some are run by actions of a block in which it is the innermost open element. An element that
is put in its place is another one, with a life of its own. -/
inductive Lives (first : Element) : List ElementEdit → Element → Prop
  | start : Lives first [] first
  | edit {done : List ElementEdit} {element : Element} (edit : ElementEdit) :
      Lives first done element → Lives first (done ++ [edit]) (edit.run element).2
  | act {done : List ElementEdit} {element after : Element} {root : List Node}
      {outer : List Element} {layout : Layout} {record : Record} (action : Action)
      (hkeeps : action.assigns = false) : Lives first done element →
      action.run ⟨outer.length + 1⟩ ⟨root, element :: outer, layout⟩ =
        (record, ⟨root, after :: outer, layout⟩) → Lives first (done ++ action.edit?.toList) after

/-- What operations make of the category of an element: they can let it run on in the line or force a
closing tag, and nothing else. -/
structure Becomes (before : Element) (edits : List ElementEdit) (after : Element) : Prop where
  tag : after.tag = before.tag
  void : after.isVoid = before.isVoid
  inline : after.inline = true ↔ before.inline = true ∨ .makeInline ∈ edits
  closed : after.closed = true ↔ before.closed = true ∨ .makeClosed ∈ edits

/-- The tag of an element is in order, and the flags agree with the tables of tags. -/
structure Categorized (element : Element) : Prop where
  name : Name.isElementName element.tag = true
  lower : Name.lower element.tag = element.tag
  void : element.isVoid = true ↔ element.tag ∈ Name.voidTags
  inline : element.tag ∈ Name.inlineTags → element.inline = true
  closed : element.isVoid = false → element.closed = true

section Step

variable {element : Element}

theorem becomes_of_same {after : Element} {edits : List ElementEdit}
    (htag : after.tag = element.tag) (hvoid : after.isVoid = element.isVoid)
    (hinline : after.inline = element.inline) (hclosed : after.closed = element.closed)
    (hedits : ∀ edit ∈ edits, edit ≠ .makeInline ∧ edit ≠ .makeClosed) :
    element.Becomes edits after := by
  have hi : .makeInline ∉ edits := fun hmem => (hedits _ hmem).1 rfl
  have hc : .makeClosed ∉ edits := fun hmem => (hedits _ hmem).2 rfl
  refine ⟨htag, hvoid, ?_, ?_⟩
  · rw [hinline, or_iff_left hi]
  · rw [hclosed, or_iff_left hc]

theorem Becomes.append {before between after : Element} {earlier later : List ElementEdit}
    (hearlier : before.Becomes earlier between) (hlater : between.Becomes later after) :
    before.Becomes (earlier ++ later) after where
  tag := hlater.tag.trans hearlier.tag
  void := hlater.void.trans hearlier.void
  inline := by rw [hlater.inline, hearlier.inline, List.mem_append, or_assoc]
  closed := by rw [hlater.closed, hearlier.closed, List.mem_append, or_assoc]

theorem becomes_callMember (element : Element) (member : String) (args : List Arg) (block : Bool) :
    element.Becomes [.callMember member args block] (element.callMember member args block).2 := by
  -- A call changes nothing, or it writes children, or it writes an attribute.
  obtain hsame | ⟨previous, hwrite⟩ := element.callMember_changes member args block
  · rw [hsame]
    exact becomes_of_same rfl rfl rfl rfl (by simp)
  · obtain ⟨arg, -, ⟨-, children, -, -, hafter⟩ | ⟨-, value, -, hset⟩⟩ :=
      writeMember_eq_ok.mp hwrite
    · rw [hafter]
      exact becomes_of_same rfl rfl rfl rfl (by simp)
    · obtain ⟨-, -, hafter⟩ := setAttr_eq_ok.mp hset
      rw [hafter]
      exact becomes_of_same rfl rfl rfl rfl (by simp)

/-- An operation that binds an attribute, or fails, leaves the category alone. -/
theorem becomes_settle {edits : List ElementEdit}
    {result : Except MarkupError (Option AttrValue × Element)}
    (hresult : ∀ previous changed, result = .ok (previous, changed) →
      ∃ attrs, changed = { element with attrs })
    (hedits : ∀ edit ∈ edits, edit ≠ .makeInline ∧ edit ≠ .makeClosed) :
    element.Becomes edits (element.settle result).2 := by
  cases result with
  | error error => exact becomes_of_same rfl rfl rfl rfl hedits
  | ok result =>
    obtain ⟨attrs, hchanged⟩ := hresult result.1 result.2 rfl
    rw [settle, hchanged]
    exact becomes_of_same rfl rfl rfl rfl hedits

theorem becomes_edit (element : Element) (edit : ElementEdit) :
    element.Becomes [edit] (edit.run element).2 := by
  cases edit with
  | makeInline =>
    refine ⟨rfl, rfl, iff_of_true rfl (Or.inr List.mem_cons_self), ?_⟩
    exact (or_iff_left (by simp)).symm
  | makeClosed =>
    refine ⟨rfl, rfl, ?_, iff_of_true rfl (Or.inr List.mem_cons_self)⟩
    exact (or_iff_left (by simp)).symm
  | setAttr name value =>
    refine becomes_settle (fun previous changed hset => ?_) (by simp)
    exact ⟨_, (setAttr_eq_ok.mp hset).2.2⟩
  | bindAttr key value =>
    refine becomes_settle (fun previous changed hbind => ?_) (by simp)
    exact ⟨_, (bindAttr_eq_ok.mp hbind).2.2⟩
  | callMember member args block => exact element.becomes_callMember member args block
  | _ => exact becomes_of_same rfl rfl rfl rfl (by simp)

/-- An action that leaves its element in place changes the category only by the operation that it
runs. -/
theorem becomes_act (layout : Layout) (root : List Node) (element : Element) (action : Action)
    (h : action.assigns = false) :
    element.Becomes action.edit?.toList (action.meaning layout root element).2 := by
  match action with
  | .call call =>
    -- A call can only add a child.
    simp only [Action.meaning, Action.edit?]
    cases (call.meaning layout root).2 with
    | none => exact becomes_of_same rfl rfl rfl rfl (by simp)
    | some node => exact becomes_of_same rfl rfl rfl rfl (by simp)
  | .edit edit => exact element.becomes_edit edit
  | .element => exact becomes_of_same rfl rfl rfl rfl (by simp [Action.edit?])
  | .assign _ => cases h
  | .attempt tried => exact becomes_act layout root element tried h

end Step

theorem Lives.becomes {first element : Element} {done : List ElementEdit}
    (h : first.Lives done element) : first.Becomes done element := by
  induction h with
  | start => exact becomes_of_same rfl rfl rfl rfl (by simp)
  | edit edit _ ih => exact ih.append (becomes_edit _ edit)
  | @act done element after root outer layout record action hkeeps _ hrun ih =>
    have hmeaning := (Action.run_meaning root element outer layout action).2
    rw [hrun] at hmeaning
    have hafter : after = (action.meaning layout root element).2 :=
      (List.cons.inj (congrArg Builder.opened hmeaning)).1
    rw [hafter]
    exact ih.append (becomes_act layout root element action hkeeps)

/-- A block in which nothing else is put in the place of its element goes on with the life of this
element, whether the block fails or not. -/
theorem Lives.runBlock {first element : Element} {done : List ElementEdit} {block : List Action}
    (h : first.Lives done element) (hkeeps : ∀ action ∈ block, action.assigns = false)
    (root : List Node) (outer : List Element) (layout : Layout) :
    ∃ edits after, (Action.runBlock ⟨outer.length + 1⟩ ⟨root, element :: outer, layout⟩ block).2 =
        ⟨root, after :: outer, layout⟩ ∧ first.Lives (done ++ edits) after := by
  induction block generalizing element done with
  | nil => exact ⟨[], element, rfl, (List.append_nil done).symm ▸ h⟩
  | cons action actions ih =>
    obtain ⟨hfirst, hrest⟩ := List.forall_mem_cons.mp hkeeps
    obtain ⟨record, between, hstep⟩ : ∃ record between, action.run ⟨outer.length + 1⟩
        ⟨root, element :: outer, layout⟩ = (record, ⟨root, between :: outer, layout⟩) :=
      ⟨_, _, Prod.ext rfl (Action.run_meaning root element outer layout action).2⟩
    have hlives := h.act action hfirst hstep
    simp only [Action.runBlock_cons, hstep]
    -- An error that is not caught ends the block, and the element stays as it is then.
    cases escaping record.reply action.catches with
    | some error => exact ⟨_, between, rfl, hlives⟩
    | none =>
      obtain ⟨edits, after, hrun, hafter⟩ := ih hlives hrest
      refine ⟨action.edit?.toList ++ edits, after, hrun, ?_⟩
      rwa [← List.append_assoc]

/-- At first the flags are what the tag says. -/
theorem Made.flags {element : Element} (h : element.Made) :
    (element.isVoid = true ↔ element.tag ∈ Name.voidTags) ∧
      (element.inline = true ↔ element.tag ∈ Name.inlineTags) ∧
      (element.closed = true ↔ element.tag ∉ Name.voidTags) := by
  have hflags : element.void = Name.isVoid element.tag ∧
      element.inline = Name.isInline element.tag ∧
      element.closed = !Name.isVoid element.tag := by
    cases h with
    | ofTag hmade =>
      obtain ⟨-, rfl⟩ := ofTag_eq_ok.mp hmade
      simp only [and_self]
    | compose hmade =>
      rw [compose_eq] at hmade
      obtain ⟨-, rfl⟩ := MarkupError.firstOr_eq_ok.mp hmade
      simp only [composed, and_self]
  rw [isVoid, hflags.1, hflags.2.1, hflags.2.2, Bool.not_eq_true', ← Bool.not_eq_true]
  exact ⟨List.contains_iff_mem, List.contains_iff_mem, not_congr List.contains_iff_mem⟩

/-- The element has a life that began with a constructor. -/
def HasLife (element : Element) : Prop := ∃ first done, Made first ∧ first.Lives done element

theorem HasLife.edit {element after : Element} (h : element.HasLife) (edit : ElementEdit)
    (hrun : (edit.run element).2 = after) : after.HasLife := by
  obtain ⟨first, done, hmade, hlives⟩ := h
  exact ⟨first, _, hmade, hrun ▸ hlives.edit edit⟩

theorem hasLife_kept : Kept HasLife where
  ofTag h := ⟨_, [], .ofTag h, .start⟩
  children {_} nodes h := h.edit (.children (.replace nodes)) rfl
  bind {element key} value hkey h := by
    refine h.edit (.bindAttr key value) ?_
    rw [ElementEdit.run, bindAttr_eq_ok.mpr ⟨hkey, rfl, rfl⟩]
    rfl
  access {element name} value hname h := by
    refine h.edit (.setAttr name value) ?_
    rw [ElementEdit.run, setAttr_eq_ok.mpr ⟨hname, rfl, rfl⟩]
    rfl
  unbind {_} key h := h.edit (.unbindAttr key) rfl
  inline h := h.edit .makeInline rfl
  closed h := h.edit .makeClosed rfl

theorem Lives.void_iff {first element : Element} {done : List ElementEdit} (hmade : first.Made)
    (h : first.Lives done element) : element.isVoid = true ↔ element.tag ∈ Name.voidTags := by
  rw [h.becomes.void, h.becomes.tag]
  exact hmade.flags.1

theorem Lives.closed_iff {first element : Element} {done : List ElementEdit} (hmade : first.Made)
    (h : first.Lives done element) :
    element.closed = true ↔ element.tag ∉ Name.voidTags ∨ .makeClosed ∈ done := calc
  element.closed = true ↔ first.closed = true ∨ .makeClosed ∈ done := h.becomes.closed
  _ ↔ first.tag ∉ Name.voidTags ∨ .makeClosed ∈ done := or_congr_left hmade.flags.2.2
  _ ↔ element.tag ∉ Name.voidTags ∨ .makeClosed ∈ done := by rw [h.becomes.tag]

theorem Lives.inline_iff {first element : Element} {done : List ElementEdit} (hmade : first.Made)
    (h : first.Lives done element) :
    element.inline = true ↔ element.tag ∈ Name.inlineTags ∨ .makeInline ∈ done := calc
  element.inline = true ↔ first.inline = true ∨ .makeInline ∈ done := h.becomes.inline
  _ ↔ first.tag ∈ Name.inlineTags ∨ .makeInline ∈ done := or_congr_left hmade.flags.2.1
  _ ↔ element.tag ∈ Name.inlineTags ∨ .makeInline ∈ done := by rw [h.becomes.tag]

theorem Named.categorized {element : Element} (hnamed : element.Named) (hlife : element.HasLife) :
    element.Categorized := by
  obtain ⟨first, done, hmade, hlives⟩ := hlife
  refine ⟨hnamed.isElementName_tag, ?_, hlives.void_iff hmade, ?_, ?_⟩
  · obtain ⟨name, -, htag⟩ := hnamed.tag
    rw [htag, Name.lower_lower]
  · intro htag
    exact (hlives.inline_iff hmade).mpr (Or.inl htag)
  · intro hvoid
    rw [Bool.eq_false_iff, ne_eq, hlives.void_iff hmade] at hvoid
    exact (hlives.closed_iff hmade).mpr (Or.inl hvoid)

/-- The categories of a reachable element and of all elements inside it. Each tag is in lower case and
can be written, and the flags agree with the tables. Whatever is done to such an element afterwards,
and a block that runs in it is part of that, its tag and whether it is void stay as they are, and the
other flags can be set and never be taken back. It has a life that began with a constructor; and in
whatever way it lived, its closing tag is missing exactly where its tag is void, it has no child, and
none was ever forced. -/
theorem Reachable.categories {element : Element} (h : element.Reachable) :
    ∀ inner ∈ element.preorder, inner.Categorized ∧
      (∀ edits after, inner.Lives edits after → inner.Becomes edits after) ∧
      (∀ block : List Action, (∀ action ∈ block, action.assigns = false) →
        ∀ (root : List Node) (outer : List Element) (layout : Layout), ∃ edits after,
          (Action.runBlock ⟨outer.length + 1⟩ ⟨root, inner :: outer, layout⟩ block).2 =
            ⟨root, after :: outer, layout⟩ ∧ inner.Lives edits after) ∧
      (∃ first done, Made first ∧ first.Lives done inner) ∧
      ∀ first done, Made first → first.Lives done inner →
        ∀ (layout : Layout) (depth : Nat) (fresh : Bool),
          ¬ inner.ClosesIn (layout.elementMarkup inner depth fresh).text ↔
            inner.tag ∈ Name.voidTags ∧ inner.children = [] ∧ .makeClosed ∉ done := by
  intro inner hinner
  have hnamed := h.named inner hinner
  have hlife := h.throughout hasLife_kept inner hinner
  refine ⟨hnamed.categorized hlife, fun _ _ hlives => hlives.becomes,
    fun block hkeeps => Lives.start.runBlock hkeeps, hlife, ?_⟩
  intro first done hmade hlives layout depth fresh
  -- A closing tag is written where it is forced, and it is forced by the tag or by the life.
  calc ¬ inner.ClosesIn (layout.elementMarkup inner depth fresh).text
    _ ↔ ¬ (inner.closed = true ∨ inner.children ≠ []) :=
      not_congr (closesIn_elementMarkup_iff hnamed layout depth fresh)
    _ ↔ ¬ ((inner.tag ∉ Name.voidTags ∨ .makeClosed ∈ done) ∨ inner.children ≠ []) :=
      not_congr (or_congr_left (hlives.closed_iff hmade))
    _ ↔ inner.tag ∈ Name.voidTags ∧ inner.children = [] ∧ .makeClosed ∉ done := by
      rw [not_or, not_or, not_not, not_not, and_assoc, and_comm (b := inner.children = [])]

/-- Two breaks in a paragraph. A block has forced a closing tag on the second, which is void still. -/
theorem categories_breaks :
    let plain : Element := ⟨"br", .empty, [], true, false, false⟩
    let forced : Element := ⟨"br", .empty, [], true, false, true⟩
    let paragraph : Element := ⟨"p", .empty, [.element plain, .element forced], false, false, true⟩
    paragraph.Reachable ∧ forced.isVoid = true ∧
      ∀ (layout : Layout) (depth : Nat) (fresh : Bool),
        ¬ plain.ClosesIn (layout.elementMarkup plain depth fresh).text ∧
          forced.ClosesIn (layout.elementMarkup forced depth fresh).text := by
  intro plain forced paragraph
  have hfresh : Element.ofTag "br" = .ok plain := rfl
  have hplain : plain.Reachable := .ofTag hfresh
  have hforced : forced.Reachable :=
    hplain.edit .makeClosed fun _ hgiven => absurd hgiven List.not_mem_nil
  have hparagraph : paragraph.Reachable := by
    have hmade : compose "p" (.tree [.element plain, .element forced]) .empty = .ok paragraph := rfl
    refine .compose ?_ hmade
    exact List.forall_mem_cons.mpr ⟨hplain, List.forall_mem_singleton.mpr hforced⟩
  have hrun : (Action.attempt (.edit .makeClosed)).run ⟨([] : List Element).length + 1⟩
      ⟨[], [plain], {}⟩ = (⟨.ok .done, 1, 0, []⟩, ⟨[], [forced], {}⟩) := rfl
  have hforcing : plain.Lives [.makeClosed] forced := Lives.start.act _ rfl hrun
  have hpreorder : paragraph.preorder = [paragraph, plain, forced] := rfl
  have hmade : plain.Made := .ofTag hfresh
  refine ⟨hparagraph, ?_, fun layout depth fresh => ⟨?_, ?_⟩⟩
  · obtain ⟨hcategorized, -⟩ := hparagraph.categories forced (by simp [hpreorder])
    exact hcategorized.void.mpr (by decide)
  · obtain ⟨-, -, -, -, hcloses⟩ := hparagraph.categories plain (by simp [hpreorder])
    refine (hcloses plain [] hmade .start layout depth fresh).mpr ⟨?_, rfl, List.not_mem_nil⟩
    decide
  · obtain ⟨-, -, -, -, hcloses⟩ := hparagraph.categories forced (by simp [hpreorder])
    by_contra hopen
    have hnever := ((hcloses plain _ hmade hforcing layout depth fresh).mp hopen).2.2
    exact hnever List.mem_cons_self

end Element

end HtmlDoc
