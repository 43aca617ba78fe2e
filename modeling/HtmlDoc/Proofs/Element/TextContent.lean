import HtmlDoc.Proofs.Builder.Refusal
import HtmlDoc.Proofs.Element.Members
import HtmlDoc.Proofs.Layout.Composition

/-!
Text content: the ways to give an element a text. Some of them escape the text at once and keep the
result as markup, and the others keep the text and leave the escaping to the writers. Main statement:
whichever way it came, the element is written with the text escaped exactly once, and with a trusted
text as it stands.
-/

namespace HtmlDoc

/-- What is assigned as children is this text, by itself or as the only node. -/
inductive Children.OfText (fragment : Fragment) : Children → Prop
  | text : OfText fragment (.text fragment)
  | tree : OfText fragment (.tree [.text fragment])
  | nodes : OfText fragment (.nodes [.text fragment])

/-- The operations that give an element without children this text. -/
inductive ElementEdit.PutsText (fragment : Fragment) : ElementEdit → Prop
  | push : PutsText fragment (.children (.push (.text fragment)))
  | assign {children : Children} (hchildren : children.OfText fragment) :
      PutsText fragment (.assignChildren children)
  | member {arg : Arg} {children : Children} (block : Bool) (harg : arg.StandsForChildren children)
      (hchildren : children.OfText fragment) : PutsText fragment (.callMember "html=" [arg] block)

/-- The actions that give the element of their block this text. -/
inductive Action.PutsText (fragment : Fragment) : Action → Prop
  | push : PutsText fragment (.call (.push (.text fragment)))
  | edit {edit : ElementEdit} (hedit : edit.PutsText fragment) : PutsText fragment (.edit edit)

/-- The calls for any tag that ask for an element with this content and these attributes. -/
inductive TagCall.AsksFor (tag : String) (content : Content) (attrs : Attributes) : TagCall → Prop
  | tag : AsksFor tag content attrs (.tag tag content attrs)
  | byName {arg : Arg} (harg : arg.StandsFor content) :
      AsksFor tag content attrs (.byName tag [arg, .attrs attrs])

/-- The calls on a builder that add an element with this text: the text is its content, or a block
puts it there. -/
inductive Call.AddsText (tag : String) (fragment : Fragment) (attrs : Attributes) : Call → Prop
  | add {call : TagCall} (hcall : call.AsksFor tag (.text fragment) attrs) :
      AddsText tag fragment attrs (.add call)
  | addWith {call : TagCall} {action : Action} (hcall : call.AsksFor tag .empty attrs)
      (haction : action.PutsText fragment) : AddsText tag fragment attrs (.addWith call [action])

/-- The text of an element that holds nothing but a text, given what this text is written as. In a
block element it has a line of its own, one level deeper. -/
def Layout.textMarkup (layout : Layout) (depth : Nat) (fresh : Bool) (tag : String)
    (attrs : Attributes) (written : String) : String :=
  if Name.isInline tag then
    layout.lead depth fresh true ++ openingTag tag attrs ++ written ++ "</" ++ tag ++ ">"
  else
    let line := layout.indentation (depth + 1) ++ written
    layout.lead depth fresh false ++ openingTag tag attrs ++ "\n" ++ line ++
      (if line = "" ∨ line.toList.getLast? = some '\n' then "" else "\n") ++
      layout.indentation depth ++ "</" ++ tag ++ ">" ++ "\n"

/-- The element of this tag with these attributes shows the text: escaped once, or as it stands if it
is trusted, whatever the layout, the depth and the place. -/
structure Element.Shows (name : String) (given : Attributes) (fragment : Fragment)
    (element : Element) : Prop where
  tag : element.tag = Name.lower name
  attrs : element.attrs = given
  markup : ∀ (layout : Layout) (depth : Nat) (fresh : Bool),
    layout.elementMarkup element depth fresh =
      .markup (layout.textMarkup depth fresh (Name.lower name) given
        (if fragment.trusted then fragment.text else Text.escapeOnce fragment.text))

variable {tag : String} {attrs : Attributes} {fragment : Fragment}

/-- The nodes that a text becomes: escaped already, or still to be escaped. -/
def Node.AreText (fragment : Fragment) (nodes : List Node) : Prop :=
  ∃ piece, nodes = [.text piece] ∧ piece.asMarkup = fragment.asMarkup

theorem Node.areText_self (fragment : Fragment) : AreText fragment [.text fragment] :=
  ⟨fragment, rfl, rfl⟩

/-- What has been escaped once is markup, and is not escaped again. -/
theorem Node.areText_escapeOnce (fragment : Fragment) :
    AreText fragment [.text fragment.escapeOnce] :=
  ⟨fragment.escapeOnce, rfl, rfl⟩

theorem Children.OfText.areText {children : Children} (h : children.OfText fragment) :
    Node.AreText fragment children.toNodes := by
  cases h with
  | text => exact Node.areText_escapeOnce fragment
  | tree => exact Node.areText_self fragment
  | nodes => exact Node.areText_self fragment

namespace Element

/-- An element of a tag that holds nothing but a text. -/
structure HoldsText (name : String) (given : Attributes) (fragment : Fragment)
    (element : Element) : Prop where
  tag : element.tag = Name.lower name
  attrs : element.attrs = given
  inline : element.inline = Name.isInline (Name.lower name)
  children : Node.AreText fragment element.children

theorem HoldsText.shows {element : Element} (h : element.HoldsText tag attrs fragment) :
    element.Shows tag attrs fragment := by
  obtain ⟨ownTag, ownAttrs, children, void, inline, closed⟩ := element
  obtain ⟨rfl, rfl, rfl, piece, rfl, hpiece⟩ := h
  refine ⟨rfl, rfl, fun layout depth fresh => ?_⟩
  -- There is a child, so the closing tag is written whatever the tag is.
  have hclosing : closingTag (Name.lower tag) (closed || true) = "</" ++ Name.lower tag ++ ">" := by
    rw [Bool.or_true]
    rfl
  have hwritten : (if fragment.trusted then fragment.text else Text.escapeOnce fragment.text) =
      piece.asMarkup := hpiece.symm
  rw [Layout.elementMarkup_eq, hwritten, Layout.textMarkup]
  simp only [Layout.elementText, Layout.treeText, List.isEmpty_cons, Bool.not_false, hclosing,
    Layout.lineEnd_eq]
  cases Name.isInline (Name.lower tag) with
  | true => simp [String.append_assoc]
  | false => simp [String.append_assoc]

/-- An element of this tag with these attributes that holds nothing yet. -/
def bare (tag : String) (attrs : Attributes) : Element := composed tag .empty attrs

theorem attrs_bare (tag : String) (attrs : Attributes) : (bare tag attrs).attrs = attrs :=
  Attributes.ofList_entries attrs

theorem holdsText_composed (tag : String) (attrs : Attributes) (fragment : Fragment) :
    (composed tag (.text fragment) attrs).HoldsText tag attrs fragment where
  tag := rfl
  attrs := Attributes.ofList_entries attrs
  inline := rfl
  children := Node.areText_escapeOnce fragment

theorem holdsText_children {nodes : List Node} (h : Node.AreText fragment nodes) :
    HoldsText tag attrs fragment { bare tag attrs with children := nodes } where
  tag := rfl
  attrs := attrs_bare tag attrs
  inline := rfl
  children := h

/-- Content without keys adds no fault to those of the tag and the attributes. -/
theorem compose_of_valid {content : Content} (hcontent : content.entries = [])
    (htag : Name.isElementName tag = true) (hattrs : ∀ key ∈ attrs.keys, Name.isKey key = true) :
    compose tag content attrs = .ok (composed tag content attrs) := by
  have hnil : keyFaults (Entries.keys content.entries) = [] := by
    rw [hcontent]
    rfl
  rw [compose_eq, tagFaults_eq_nil.mpr htag, hnil, keyFaults_eq_nil.mpr hattrs]
  rfl

end Element

/-- Whatever way a text is given to an element without children, the element holds it then. -/
theorem ElementEdit.PutsText.run {edit : ElementEdit} (h : edit.PutsText fragment) (tag : String)
    (attrs : Attributes) : ∃ reply filled, edit.run (Element.bare tag attrs) = (.ok reply, filled) ∧
      filled.HoldsText tag attrs fragment := by
  cases h with
  | push => exact ⟨_, _, rfl, Element.holdsText_children (Node.areText_self fragment)⟩
  | assign hchildren => exact ⟨_, _, rfl, Element.holdsText_children hchildren.areText⟩
  | @member arg children block harg hchildren =>
    have hcall : (Element.bare tag attrs).callMember "html=" [arg] block =
        (.ok none, (Element.bare tag attrs).assignChildren children) :=
      (Element.Accesses.setChildren block harg).callMember_eq
    refine ⟨.value none, _, ?_, Element.holdsText_children hchildren.areText⟩
    rw [ElementEdit.run, hcall]
    rfl

theorem TagCall.AsksFor.element_eq {content : Content} {call : TagCall}
    (h : call.AsksFor tag content attrs) (htag : Name.isTagName tag = true) :
    call.element = Element.compose tag content attrs := by
  cases h with
  | tag => exact TagCall.element_of_isTagName htag content attrs
  | byName harg =>
    rw [TagCall.element_byName harg]
    exact TagCall.element_of_isTagName htag content attrs

/-- A block of one action that gives its element a text leaves the element with this text. -/
theorem Action.PutsText.runBlock {action : Action} (h : action.PutsText fragment)
    (builder : Builder) (tag : String) (attrs : Attributes) :
    ∃ records filled, Action.runBlock ⟨builder.depth + 1⟩
        { builder with opened := Element.bare tag attrs :: builder.opened } [action] =
          (⟨.ok (), records⟩, { builder with opened := filled :: builder.opened }) ∧
      filled.HoldsText tag attrs fragment := by
  obtain ⟨root, opened, layout⟩ := builder
  cases h with
  | push => exact ⟨_, _, rfl, Element.holdsText_children (Node.areText_self fragment)⟩
  | @edit edit hedit =>
    obtain ⟨reply, filled, hrun, hfilled⟩ := hedit.run tag attrs
    have haction : (Action.edit edit).run ⟨opened.length + 1⟩
        ⟨root, Element.bare tag attrs :: opened, layout⟩ =
          Builder.record ⟨root, filled :: opened, layout⟩ (.ok reply) [] := by
      rw [Action.run, Scope.update_innermost, hrun]
      rfl
    refine ⟨[⟨.ok reply, opened.length + 1, root.length, []⟩], filled, ?_, hfilled⟩
    rw [Action.runBlock, Builder.depth, haction]
    rfl

theorem Call.AddsText.run {call : Call} (h : call.AddsText tag fragment attrs)
    (htag : Name.isTagName tag = true) (hattrs : ∀ key ∈ attrs.keys, Name.isKey key = true)
    (builder : Builder) : ∃ record after element, call.run builder = (record, after) ∧
      record.reply = .ok .done ∧ Builder.Gains (.element element) builder after ∧
        element.HoldsText tag attrs fragment := by
  have hname := Name.isElementName_of_isTagName htag
  cases h with
  | @add call hcall =>
    have helement : call.element = .ok (Element.composed tag (.text fragment) attrs) := calc
      call.element = Element.compose tag (.text fragment) attrs := hcall.element_eq htag
      _ = .ok (Element.composed tag (.text fragment) attrs) :=
        Element.compose_of_valid rfl hname hattrs
    have hrun : (Call.add call).run builder =
        (builder.push (.element (.composed tag (.text fragment) attrs))).record (.ok .done) [] := by
      rw [Call.run, Builder.add, helement]
      rfl
    exact ⟨_, _, _, hrun, rfl, Builder.gains_push builder _,
      Element.holdsText_composed tag attrs fragment⟩
  | @addWith call action hcall haction =>
    have helement : call.element = .ok (Element.bare tag attrs) := calc
      call.element = Element.compose tag .empty attrs := hcall.element_eq htag
      _ = .ok (Element.bare tag attrs) := Element.compose_of_valid rfl hname hattrs
    -- The block does its work on the open element, which goes into the builder when it is closed.
    obtain ⟨records, filled, hblock, hfilled⟩ := haction.runBlock builder tag attrs
    have hwithin := builder.within_eq_push (Element.bare tag attrs) filled _
      (fun scope inside => Action.runBlock scope inside [action]) hblock
    have hrun : (Call.addWith call [action]).run builder =
        (builder.push (.element filled)).record (.ok .done) records := by
      rw [Call.run_addWith_ok builder call [action] helement, hwithin]
      rfl
    exact ⟨_, _, filled, hrun, rfl, Builder.gains_push builder _, hfilled⟩

namespace Element

/-- Texts are escaped exactly once, whichever way they come into an element. For every tag and all
attributes that can be written, an element composed of a text shows it, and so does an element that
is given the text after it was composed of nothing, by any operation that does so. If the tag can be
called, every call on a builder that adds an element with the text succeeds, and adds one that shows
it. -/
theorem text_shown_once (tag : String) (attrs : Attributes) (fragment : Fragment)
    (htag : Name.isElementName tag = true) (hattrs : ∀ key ∈ attrs.keys, Name.isKey key = true) :
    (∃ filled, compose tag (.text fragment) attrs = .ok filled ∧ filled.Shows tag attrs fragment) ∧
    (∃ empty, compose tag .empty attrs = .ok empty ∧ empty.children = [] ∧ empty.attrs = attrs ∧
      ∀ edit : ElementEdit, edit.PutsText fragment →
        ∃ reply filled, edit.run empty = (.ok reply, filled) ∧ filled.Shows tag attrs fragment) ∧
    (Name.isTagName tag = true → ∀ (builder : Builder) (call : Call),
      call.AddsText tag fragment attrs →
        ∃ record after element, call.run builder = (record, after) ∧ record.reply = .ok .done ∧
          Builder.Gains (.element element) builder after ∧ element.Shows tag attrs fragment) := by
  refine ⟨?composed, ?given, ?called⟩
  case composed =>
    exact ⟨_, compose_of_valid rfl htag hattrs, (holdsText_composed tag attrs fragment).shows⟩
  case given =>
    refine ⟨bare tag attrs, compose_of_valid rfl htag hattrs, rfl, attrs_bare tag attrs, ?_⟩
    intro edit hedit
    obtain ⟨reply, filled, hrun, hfilled⟩ := hedit.run tag attrs
    exact ⟨reply, filled, hrun, hfilled.shows⟩
  case called =>
    intro hname builder call hcall
    obtain ⟨record, after, element, hrun, hreply, hgains, helement⟩ :=
      hcall.run hname hattrs builder
    exact ⟨record, after, element, hrun, hreply, hgains, helement.shows⟩

/-- A void element with a text in which one ampersand is a reference already: composed of the text, and
made by name in an open paragraph, where its block sets the text by name. -/
theorem text_shown_once_break :
    let fragment : Fragment := .plain "1 < 2 &amp; &"
    let attrs : Attributes := .ofList [("id", .text (.plain "x"))]
    let markup : Fragment := .markup "\n  <br id=\"x\">\n    1 &lt; 2 &amp; &amp;\n  </br>\n"
    let builder : Builder := ⟨[], [⟨"p", .empty, [], false, false, true⟩], {}⟩
    (∃ filled, compose "br" (.text fragment) attrs = .ok filled ∧
      Layout.elementMarkup {} filled 1 false = markup) ∧
    ∃ record after element, (Call.addWith (.byName "br" [.value (.flag false), .attrs attrs])
        [.edit (.callMember "html=" [.value (.text fragment)] true)]).run builder =
          (record, after) ∧
      Builder.Gains (.element element) builder after ∧
      Layout.elementMarkup {} element 1 false = markup := by
  intro fragment attrs markup builder
  obtain ⟨hcomposed, -, hcalled⟩ := text_shown_once "br" attrs fragment (by decide) (by decide)
  obtain ⟨filled, hfilled, hshows⟩ := hcomposed
  refine ⟨⟨filled, hfilled, ?_⟩, ?_⟩
  · rw [hshows.markup]
    decide
  · obtain ⟨record, after, element, hrun, -, hgains, hshows⟩ := hcalled (by decide) builder _
      (.addWith (.byName (.flag false)) (.edit (.member true (.text fragment) .text)))
    refine ⟨record, after, element, hrun, hgains, ?_⟩
    rw [hshows.markup]
    decide

end Element

end HtmlDoc
