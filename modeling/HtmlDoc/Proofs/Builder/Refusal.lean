import HtmlDoc.Proofs.Builder.Agreement
import HtmlDoc.Proofs.Builder.Meaning
import HtmlDoc.Proofs.Element.Construction
import HtmlDoc.Proofs.Name.Nesting

/-!
Refusal: when a builder turns a call for an element down, and what a failed block leaves. What is
wrong with a call is listed in the order in which it counts. Main statement: a call with a fault
fails with the first one and changes nothing; any other call runs its block, fails as the block
does, and adds one node, the element as the block left it.
-/

namespace HtmlDoc

open MarkupError (firstOr)

namespace TagCall

/-- The tag that a call asks for. -/
def name : TagCall → String
  | .tag called _ _ | .byName called _ => called
  | .container shorthand _ _ => shorthand.name
  | .void shorthand _ => shorthand.name

/-- The arguments of a call by name. -/
def args : TagCall → List Arg
  | .byName _ given => given
  | .tag _ _ _ | .container _ _ _ | .void _ _ => []

/-- What the element is to hold: the first argument of a call by name. -/
def content : TagCall → Content
  | .tag _ given _ | .container _ given _ => given
  | .byName _ (first :: _) => first.toContent
  | .byName _ [] | .void _ _ => .empty

/-- The attributes that the element is to have: the second argument of a call by name. -/
def attrs : TagCall → Attributes
  | .tag _ _ given | .container _ _ given | .void _ given => given
  | .byName _ (_ :: .attrs given :: _) => given
  | .byName _ _ => .empty

def nameFaults (name : String) : List MarkupError :=
  if Name.isTagName name then [] else [.unknownMember name]

def countFaults (name : String) (args : List Arg) : List MarkupError :=
  if args.length ≤ 2 then [] else [.tooManyArguments name args.length 2]

/-- What is wrong with a second argument: it is neither attributes nor nothing. -/
def attrsFaults (name : String) : List Arg → List MarkupError
  | _ :: .value .nil :: _ | _ :: .attrs _ :: _ => []
  | _ :: second :: _ => [.invalidArgument name .attributeMap (some second.kind)]
  | [] | [_] => []

/-- What is wrong with a call: its name, the number of its arguments, the second of them, and the
keys that cannot be written, those of the content first. -/
def faults (call : TagCall) : List MarkupError :=
  nameFaults call.name ++ (countFaults call.name call.args ++ (attrsFaults call.name call.args ++
    (Element.keyFaults (Entries.keys call.content.entries) ++ Element.keyFaults call.attrs.keys)))

theorem checkName_bind {α : Type} {name : String} {rest : List MarkupError} {result : α}
    {next : Unit → Except MarkupError α}
    (h : Name.isTagName name = true → next () = firstOr rest result) :
    checkName name >>= next = firstOr (nameFaults name ++ rest) result := by
  rw [checkName, nameFaults]
  split
  · rename_i hname
    exact h hname
  · rfl

theorem checkCount_eq (name : String) (args : List Arg) :
    checkCount name args = firstOr (countFaults name args) () := by
  rw [checkCount, countFaults, maxArgs]
  split <;> rfl

theorem attrsOfArg_eq (name : String) (args : List Arg) :
    attrsOfArg name args[1]? = firstOr (attrsFaults name args) (byName name args).attrs := by
  match args with
  | [] | [_] => rfl
  | _ :: .value value :: _ => cases value <;> rfl
  | _ :: .element _ :: _ | _ :: .tree _ :: _ | _ :: .nodes _ :: _ | _ :: .attrs _ :: _ => rfl

theorem compose_of_isTagName {name : String} (h : Name.isTagName name = true) (content : Content)
    (attrs : Attributes) : Element.compose name content attrs =
      firstOr (Element.keyFaults (Entries.keys content.entries) ++ Element.keyFaults attrs.keys)
        (Element.composed name content attrs) := by
  -- The name of a tag can be written as the name of an element.
  have htag : Element.tagFaults name = [] := if_pos (Name.isElementName_of_isTagName h)
  rw [Element.compose_eq, htag, List.nil_append]

theorem element_eq (call : TagCall) :
    call.element = firstOr call.faults (Element.composed call.name call.content call.attrs) := by
  have htag (name : String) (content : Content) (attrs : Attributes) :
      (TagCall.tag name content attrs).element = firstOr (TagCall.tag name content attrs).faults
        (Element.composed name content attrs) :=
    checkName_bind fun hname => compose_of_isTagName hname content attrs
  cases call with
  | tag name content attrs => exact htag name content attrs
  | container shorthand content attrs =>
    rw [element_container]
    exact htag shorthand.name content attrs
  | void shorthand attrs =>
    rw [element_void]
    exact htag shorthand.name .empty attrs
  | byName name args =>
    have hcontent : args[0]?.elim .empty Arg.toContent = (byName name args).content := by
      cases args <;> rfl
    apply checkName_bind
    intro hname
    rw [checkCount_eq]
    apply MarkupError.firstOr_bind
    rw [attrsOfArg_eq]
    apply MarkupError.firstOr_bind
    rw [hcontent]
    exact compose_of_isTagName hname _ _

theorem element_of_faults {call : TagCall} {error : MarkupError}
    (h : call.faults.head? = some error) : call.element = .error error := by
  obtain ⟨rest, hfaults⟩ := List.head?_eq_some_iff.mp h
  rw [element_eq, hfaults]
  rfl

theorem element_of_no_faults {call : TagCall} (h : call.faults = []) :
    call.element = .ok (Element.composed call.name call.content call.attrs) := by
  rw [element_eq, h]
  rfl

end TagCall

namespace Builder

/-- The second builder has one node more than the first, at the end of the innermost open element or,
where none is open, of the top. -/
inductive Gains (node : Node) : Builder → Builder → Prop
  | top {root : List Node} {layout : Layout} :
      Gains node ⟨root, [], layout⟩ ⟨root ++ [node], [], layout⟩
  | inside {root : List Node} {parent : Element} {outer : List Element} {layout : Layout} :
      Gains node ⟨root, parent :: outer, layout⟩
        ⟨root, { parent with children := parent.children ++ [node] } :: outer, layout⟩

theorem gains_push (builder : Builder) (node : Node) : Gains node builder (builder.push node) := by
  obtain ⟨root, opened, layout⟩ := builder
  cases opened with
  | nil => exact .top
  | cons parent outer => exact .inside

/-- A block works on the element that was opened for it, and leaving the scope adds what became of
this element. -/
theorem run_addWith_left (builder : Builder) (block : List Action) {call : TagCall}
    {element : Element} (helement : call.element = .ok element) : ∃ trace left,
      Action.runBlock ⟨builder.depth + 1⟩
        { builder with opened := element :: builder.opened } block =
          (trace, { builder with opened := left :: builder.opened }) ∧
      (Call.addWith call block).run builder =
        (builder.push (.element left)).record (trace.result.map fun _ => .done) trace.records := by
  have hleft :=
    (Action.runBlock_meaning builder.root element builder.opened builder.layout block).2.2
  generalize (Action.blockMeaning builder.layout builder.root element block).value = left at hleft
  obtain ⟨trace, hrun⟩ : ∃ trace, Action.runBlock ⟨builder.depth + 1⟩
      { builder with opened := element :: builder.opened } block =
        (trace, { builder with opened := left :: builder.opened }) := ⟨_, Prod.ext rfl hleft⟩
  have hwithin := builder.within_eq_push element left trace
    (fun scope inside => Action.runBlock scope inside block) hrun
  refine ⟨trace, left, hrun, ?_⟩
  rw [Call.run_addWith_ok builder call block helement, hwithin]

/-- When and how calls for elements fail, whatever elements are open. A call with a fault fails with
the first of its faults, leaves the builder as it was, and runs no block. A call without one adds its
element. With a block it opens the element, runs the block, which can change this element and
nothing else, answers as the block ends, and adds the element as the block left it. -/
theorem calls_refused (builder : Builder) (call : TagCall) :
    (∀ error, call.faults.head? = some error →
      builder.add call = (.error error, builder) ∧
      (∀ (ρ : Type) (block : Scope → Builder → ρ × Builder),
        builder.addWith call block = (.error error, builder)) ∧
      ∀ block : List Action, (Call.addWith call block).run builder =
        (⟨.error error, builder.depth, builder.size, []⟩, builder)) ∧
    (call.faults = [] → ∃ element, call.element = .ok element ∧
      (∃ after, builder.add call = (.ok (), after) ∧ Gains (.element element) builder after) ∧
      ∀ block : List Action, ∃ trace left,
        Action.runBlock ⟨builder.depth + 1⟩
          { builder with opened := element :: builder.opened } block =
            (trace, { builder with opened := left :: builder.opened }) ∧
        ∃ record after, (Call.addWith call block).run builder = (record, after) ∧
          record.reply = trace.result.map (fun _ => .done) ∧ record.inner = trace.records ∧
          Gains (.element left) builder after) := by
  refine ⟨?fault, ?sound⟩
  case fault =>
    intro error hfault
    have helement := TagCall.element_of_faults hfault
    refine ⟨?_, ?_, ?_⟩
    · rw [add, helement]
    · intro ρ block
      rw [addWith, helement]
    · intro block
      rw [Call.run_addWith_error builder call block helement]
      rfl
  case sound =>
    intro hsound
    have helement := TagCall.element_of_no_faults hsound
    refine ⟨_, helement, ⟨_, ?_, gains_push builder _⟩, ?_⟩
    · rw [add, helement]
    · intro block
      obtain ⟨trace, left, hblock, hrun⟩ := run_addWith_left builder block helement
      exact ⟨trace, left, hblock, _, _, hrun, rfl, rfl, gains_push builder _⟩

/-- In an open list: a call with bad keys in its content and its attributes, the same with a bad name
and an argument too many, and an item whose block fails between two texts. -/
theorem calls_refused_in_list :
    let builder : Builder :=
      ⟨[.text (.plain "top")], [⟨"ul", .empty, [.text (.plain "first")], false, false, true⟩], {}⟩
    let named : Attributes := .ofList [("id", .nil), ("b c", .nil), ("<", .nil)]
    builder.add (.byName "p" [.attrs named, .attrs named]) =
      (.error (.unknownMember "b c"), builder) ∧
    builder.add (.byName "P" [.attrs named, .attrs named, .value .nil]) =
      (.error (.unknownMember "P"), builder) ∧
    ∃ record after, (Call.addWith (.container .li .empty .empty)
        [.call (.push (.text (.plain "x"))), .call (.raise (.callback "stop")),
          .call (.push (.text (.plain "y")))]).run builder = (record, after) ∧
      record.reply = .error (.callback "stop") ∧
      Gains (.element ⟨"li", .empty, [.text (.plain "x")], false, true, true⟩) builder after := by
  intro builder named
  refine ⟨?_, ?_, ?_⟩
  · exact ((calls_refused builder _).1 _ (by decide)).1
  · exact ((calls_refused builder _).1 _ (by decide)).1
  · obtain ⟨element, helement, -, hblocks⟩ :=
      (calls_refused builder (.container .li .empty .empty)).2 (by decide)
    cases helement
    obtain ⟨trace, left, hblock, record, after, hrun, hreply, -, hgains⟩ := hblocks _
    refine ⟨record, after, hrun, ?_, ?_⟩
    · rw [hreply]
      cases hblock
      rfl
    · cases hblock
      exact hgains

end Builder

end HtmlDoc
