import HtmlDoc.Proofs.Builder.Stack

/-!
Agreement: the ways to ask a builder for an element. A call depends on its way in only by the element
that it asks for. Main statement: calls by name with arguments, calls with content and the shorthands
come to the same result and leave the same builder, whatever it was before and whatever runs inside
the element.
-/

namespace HtmlDoc

/-- What an argument of a call by name stands for as content: a text, an element, a tree or the nodes
that make it, or attributes. Where there is no content, nothing or a flag can stand. -/
inductive Arg.StandsFor : Arg → Content → Prop
  | nil : StandsFor (.value .nil) .empty
  | flag (set : Bool) : StandsFor (.value (.flag set)) .empty
  | text (fragment : Fragment) : StandsFor (.value (.text fragment)) (.text fragment)
  | element (element : Element) : StandsFor (.element element) (.element element)
  | tree (nodes : List Node) : StandsFor (.tree nodes) (.tree nodes)
  | nodes (nodes : List Node) : StandsFor (.nodes nodes) (.tree nodes)
  | attrs (attrs : Attributes) : StandsFor (.attrs attrs) (.attrs attrs)

theorem Arg.StandsFor.toContent_eq {arg : Arg} {content : Content} (h : arg.StandsFor content) :
    arg.toContent = content := by
  cases h with
  | nil => rfl
  | flag set => rfl
  | text fragment => rfl
  | element element => rfl
  | tree nodes => rfl
  | nodes nodes => rfl
  | attrs attrs => rfl

namespace TagCall

/-- A call by name with content and attributes asks for the element that the call with that content
asks for, and fails with the same error. -/
theorem element_byName {arg : Arg} {content : Content} (h : arg.StandsFor content) (name : String)
    (attrs : Attributes) :
    (byName name [arg, .attrs attrs]).element = (tag name content attrs).element := by
  have hcount : checkCount name [arg, .attrs attrs] = .ok () := if_pos (Nat.le_refl maxArgs)
  rw [element, element, hcount, ← h.toContent_eq]
  rfl

theorem element_of_isTagName {name : String} (h : Name.isTagName name = true) (content : Content)
    (attrs : Attributes) :
    (tag name content attrs).element = Element.compose name content attrs := by
  have hname : checkName name = .ok () := if_pos h
  rw [element, hname]
  rfl

theorem element_container (shorthand : ContainerTag) (content : Content) (attrs : Attributes) :
    (container shorthand content attrs).element = (tag shorthand.name content attrs).element := by
  -- The names of the shorthands pass the check that other names are put to.
  have hname : Name.isTagName shorthand.name = true := by
    cases shorthand <;> decide
  rw [element_of_isTagName hname, element]

theorem element_void (shorthand : VoidTag) (attrs : Attributes) :
    (void shorthand attrs).element = (tag shorthand.name .empty attrs).element := by
  have hname : Name.isTagName shorthand.name = true := by
    cases shorthand <;> decide
  rw [element_of_isTagName hname, element]

end TagCall

namespace Builder

variable {first second : TagCall}

theorem add_congr (h : first.element = second.element) (builder : Builder) :
    builder.add first = builder.add second := by
  rw [add, add, h]

theorem addWith_congr {ρ : Type} (h : first.element = second.element) (builder : Builder)
    (block : Scope → Builder → ρ × Builder) :
    builder.addWith first block = builder.addWith second block := by
  rw [addWith, addWith, h]

/-- An element that is opened for a block in which nothing happens is pushed when it is closed. -/
theorem addWith_nothing (builder : Builder) (call : TagCall) :
    builder.addWith call (fun _ inside => ((), inside)) = builder.add call := by
  rw [addWith, add]
  cases call.element with
  | error error => rfl
  | ok element =>
    have hpush : builder.within element (fun _ inside => ((), inside)) =
        ((), builder.push (.element element)) :=
      builder.within_eq_push element element () _ rfl
    simp only [hpush]

/-- All ways to add an element agree, in their result and in the builder they leave. A call by name
does what the call with the content does that its argument stands for, with a block and without. A
block in which nothing happens makes no difference. A shorthand does what the call with its name
does. -/
theorem calls_agree (builder : Builder) :
    (∀ name arg content attrs, Arg.StandsFor arg content →
      builder.add (.byName name [arg, .attrs attrs]) = builder.add (.tag name content attrs) ∧
      ∀ (ρ : Type) (block : Scope → Builder → ρ × Builder),
        builder.addWith (.byName name [arg, .attrs attrs]) block =
          builder.addWith (.tag name content attrs) block) ∧
    (∀ name content attrs,
      builder.addWith (.tag name content attrs) (fun _ inside => ((), inside)) =
        builder.add (.tag name content attrs)) ∧
    (∀ shorthand content attrs,
      builder.add (.container shorthand content attrs) =
        builder.add (.tag shorthand.name content attrs) ∧
      ∀ (ρ : Type) (block : Scope → Builder → ρ × Builder),
        builder.addWith (.container shorthand content attrs) block =
          builder.addWith (.tag shorthand.name content attrs) block) ∧
    ∀ shorthand attrs, builder.add (.void shorthand attrs) =
      builder.add (.tag shorthand.name .empty attrs) := by
  refine ⟨?byName, ?nothing, ?container, ?void⟩
  case byName =>
    intro name arg content attrs hstands
    have helement := TagCall.element_byName hstands name attrs
    exact ⟨add_congr helement builder, fun ρ block => addWith_congr helement builder block⟩
  case nothing =>
    intro name content attrs
    exact addWith_nothing builder (.tag name content attrs)
  case container =>
    intro shorthand content attrs
    have helement := TagCall.element_container shorthand content attrs
    exact ⟨add_congr helement builder, fun ρ block => addWith_congr helement builder block⟩
  case void =>
    intro shorthand attrs
    exact add_congr (TagCall.element_void shorthand attrs) builder

/-- The nodes of a list for a tree of them, in an element that is open. -/
theorem calls_agree_nodes :
    (⟨[], [⟨"div", .empty, [], false, false, true⟩], {}⟩ : Builder).add
        (.byName "p" [.nodes [.text (.plain "x")], .attrs (.ofList [("id", .text (.plain "y"))])]) =
      (.ok (), ⟨[], [⟨"div", .empty, [.element ⟨"p", .ofList [("id", .text (.plain "y"))],
        [.text (.plain "x")], false, false, true⟩], false, false, true⟩], {}⟩) := by
  have hagree := (calls_agree ⟨[], [⟨"div", .empty, [], false, false, true⟩], {}⟩).1 "p"
    (.nodes [.text (.plain "x")]) (.tree [.text (.plain "x")])
    (.ofList [("id", .text (.plain "y"))]) (.nodes _)
  rw [hagree.1]
  rfl

end Builder

end HtmlDoc
