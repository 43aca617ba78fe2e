import HtmlDoc.Proofs.Builder.Meaning
import HtmlDoc.Proofs.Tree.Elements

/-!
The points of a run: the places inside its blocks, each with the builder as it is there. Main
statement: what is kept by entering a block, by the actions in it and by the calls before it holds at
every point. The elements that a program brings with it count as given.
-/

namespace HtmlDoc

/-- The elements that content brings with it. -/
def Content.elements : Content → List Element
  | .element child => [child]
  | .tree nodes => Node.elements nodes
  | .empty | .text _ | .attrs _ => []

/-- The elements that assigned children bring with them. -/
def Children.elements : Children → List Element
  | .text _ => []
  | .tree items | .nodes items => Node.elements items

/-- The elements that an argument brings with it. -/
def Arg.elements : Arg → List Element
  | .element child => [child]
  | .tree items | .nodes items => Node.elements items
  | .value _ | .attrs _ => []

theorem Arg.elements_toChildren {arg : Arg} {children : Children}
    (h : arg.toChildren? = some children) : children.elements = arg.elements := by
  cases arg with
  | value value =>
    cases value with
    | text fragment => cases h; rfl
    | nil => cases h
    | flag set => cases h
  | tree items => cases h; rfl
  | nodes items => cases h; rfl
  | element child => cases h
  | attrs attrs => cases h

theorem Arg.elements_toContent (arg : Arg) : arg.toContent.elements = arg.elements := by
  cases arg with
  | value value => cases value <;> rfl
  | element child => rfl
  | tree items => rfl
  | nodes items => rfl
  | attrs attrs => rfl

/-- The elements that an operation on a tree brings with it. -/
def TreeEdit.elements : TreeEdit → List Element
  | .push node => Node.elements [node]
  | .extend nodes | .replace nodes => Node.elements nodes
  | .wrap _ _ | .isEmpty | .items | .render _ _ _ => []

/-- The elements that an operation on an element brings with it. -/
def ElementEdit.elements : ElementEdit → List Element
  | .assignChildren given => given.elements
  | .children edit => edit.elements
  | .callMember _ args _ => args.flatMap Arg.elements
  | _ => []

/-- The elements that a request for an element brings with it. -/
def TagCall.elements : TagCall → List Element
  | .tag _ content _ | .container _ content _ => content.elements
  | .byName _ args => args.flatMap Arg.elements
  | .void _ _ => []

/-- Whatever way an element is asked for, it is composed of content that the request brings. -/
theorem TagCall.exists_compose {call : TagCall} {element : Element}
    (h : call.element = .ok element) : ∃ tag content attrs,
      Element.compose tag content attrs = .ok element ∧
        ∀ given ∈ content.elements, given ∈ call.elements := by
  cases call with
  | tag name content attrs =>
    obtain ⟨-, -, hc⟩ := bind_eq_ok.mp h
    exact ⟨name, content, attrs, hc, fun _ hg => hg⟩
  | byName name args =>
    obtain ⟨-, -, h⟩ := bind_eq_ok.mp h
    obtain ⟨-, -, h⟩ := bind_eq_ok.mp h
    obtain ⟨attrs, -, hc⟩ := bind_eq_ok.mp h
    refine ⟨name, _, attrs, hc, fun given hg => ?_⟩
    cases args with
    | nil => exact absurd hg List.not_mem_nil
    | cons arg args =>
      rw [TagCall.elements, List.flatMap_cons, List.mem_append]
      exact Or.inl (Arg.elements_toContent arg ▸ hg)
  | container shorthand content attrs => exact ⟨_, content, attrs, h, fun _ hg => hg⟩
  | void shorthand attrs => exact ⟨_, .empty, attrs, h, fun _ hg => hg⟩

mutual

/-- The elements that a call brings with it, those of its block too. -/
def Call.elements : Call → List Element
  | .push node => Node.elements [node]
  | .add call => call.elements
  | .addWith call block => call.elements ++ Action.blockElements block
  | .raise _ | .isEmpty | .items | .render => []

/-- The elements that an action brings with it. -/
def Action.elements : Action → List Element
  | .call made => made.elements
  | .edit change => change.elements
  | .element => []
  | .assign given => [given]
  | .attempt tried => tried.elements

/-- The elements that a block brings with it. -/
def Action.blockElements : List Action → List Element
  | [] => []
  | action :: actions => action.elements ++ Action.blockElements actions

end

/-- The elements that a program brings with it. -/
def Line.elements (lines : List Line) : List Element :=
  lines.flatMap fun line => line.call.elements

/-- A point of a run, directly inside a block: how many blocks of the run it lies in, the scope of
the innermost of these blocks, the builder as it was when this block was entered, before its element
was opened, and the builder as it is now. -/
structure Point where
  level : Nat
  scope : Scope
  around : Builder
  now : Builder

mutual

/-- The points inside the block of a call, in the order in which they are passed. -/
def Call.points (level : Nat) (builder : Builder) : Call → List Point
  | .addWith call block =>
    match (builder.addWith call fun scope inside =>
        (Action.blockPoints (level + 1) scope builder inside block,
          (Action.runBlock scope inside block).2)).1 with
    | .ok points => points
    | .error _ => []
  | _ => []

/-- The points inside the blocks of an action. -/
def Action.points (level : Nat) (builder : Builder) : Action → List Point
  | .call call => call.points level builder
  | .attempt action => action.points level builder
  | _ => []

/-- The points of a block: its start, the place after each action, and the points inside the
actions. -/
def Action.blockPoints (level : Nat) (scope : Scope) (around now : Builder) :
    List Action → List Point
  | [] => [⟨level, scope, around, now⟩]
  | action :: actions =>
    let step := action.run scope now
    ⟨level, scope, around, now⟩ :: (action.points level now ++
      match escaping step.1.reply action.catches with
      | some _ => [⟨level, scope, around, step.2⟩]
      | none => Action.blockPoints level scope around step.2 actions)

end

/-- The points inside the blocks of a program. -/
def Line.points (builder : Builder) : List Line → List Point
  | [] => []
  | line :: lines =>
    let step := line.call.run builder
    line.call.points 0 builder ++
      match escaping step.1.reply line.catches with
      | some _ => []
      | none => Line.points step.2 lines

/-- Directly inside a block one element is open on top of those that were open around it, the scope is
that of this element, and nothing else differs. -/
def Point.Inside (point : Point) : Prop :=
  point.scope = ⟨point.around.opened.length + 1⟩ ∧
    ∃ element, point.now = { point.around with opened := element :: point.around.opened }

/-- A property of builders, at a level of nesting, that is kept when a block is entered, by actions on
the innermost element, and by calls, as long as the elements they bring are among those given. -/
structure Builder.Invariant (given : Element → Prop) (I : Nat → Builder → Prop) : Prop where
  opens : ∀ {level builder element} {call : TagCall}, (∀ brought ∈ call.elements, given brought) →
    call.element = .ok element → I level builder →
    I (level + 1) { builder with opened := element :: builder.opened }
  acts : ∀ {level root element outer layout} (action : Action),
    (∀ brought ∈ action.elements, given brought) → I level ⟨root, element :: outer, layout⟩ →
    I level ⟨root, (action.meaning layout root element).2 :: outer, layout⟩
  calls : ∀ {level builder} (call : Call), (∀ brought ∈ call.elements, given brought) →
    I level builder → I level (call.run builder).2

section

variable {given : Element → Prop} {I : Nat → Builder → Prop}

mutual

theorem Call.points_invariant (hI : Builder.Invariant given I) (level : Nat) {builder : Builder}
    (h : I level builder) (call : Call) (hg : ∀ brought ∈ call.elements, given brought) :
    ∀ point ∈ call.points level builder, point.Inside ∧ I point.level point.now := by
  cases call with
  | addWith call block =>
    intro point hp
    simp only [Call.elements, List.forall_mem_append] at hg
    simp only [Call.points, Builder.addWith] at hp
    cases he : call.element with
    | ok element =>
      -- Inside the block one level more is entered and one element more is open.
      rw [he] at hp
      exact Action.blockPoints_invariant hI (level + 1) (hI.opens hg.1 he h) block hg.2 point hp
    | error error =>
      rw [he] at hp
      exact absurd hp List.not_mem_nil
  | _ =>
    intro point hp
    exact absurd hp List.not_mem_nil

theorem Action.points_invariant (hI : Builder.Invariant given I) (level : Nat) {builder : Builder}
    (h : I level builder) (action : Action) (hg : ∀ brought ∈ action.elements, given brought) :
    ∀ point ∈ action.points level builder, point.Inside ∧ I point.level point.now := by
  cases action with
  | call call => exact Call.points_invariant hI level h call hg
  | attempt action => exact Action.points_invariant hI level h action hg
  | _ =>
    intro point hp
    exact absurd hp List.not_mem_nil

theorem Action.blockPoints_invariant (hI : Builder.Invariant given I) (level : Nat)
    {root : List Node} {element : Element} {outer : List Element} {layout : Layout}
    (h : I level ⟨root, element :: outer, layout⟩) (block : List Action)
    (hg : ∀ brought ∈ Action.blockElements block, given brought) :
    ∀ point ∈ Action.blockPoints level ⟨outer.length + 1⟩ ⟨root, outer, layout⟩
      ⟨root, element :: outer, layout⟩ block, point.Inside ∧ I point.level point.now := by
  have hinside (now : Element) :
      Point.Inside ⟨level, ⟨outer.length + 1⟩, ⟨root, outer, layout⟩,
        ⟨root, now :: outer, layout⟩⟩ := ⟨rfl, now, rfl⟩
  cases block with
  | nil =>
    intro point hp
    rw [Action.blockPoints, List.mem_singleton] at hp
    rw [hp]
    exact ⟨hinside element, h⟩
  | cons action actions =>
    intro point hp
    simp only [Action.blockElements, List.forall_mem_append] at hg
    have ha := (Action.run_meaning root element outer layout action).2
    have hnext := hI.acts action hg.1 h
    simp only [Action.blockPoints, List.mem_cons, List.mem_append, ha] at hp
    obtain hp | hp | hp := hp
    · rw [hp]
      exact ⟨hinside element, h⟩
    · exact Action.points_invariant hI level h action hg.1 point hp
    · -- Whether the action ends the block or not, what follows starts from the same frame.
      split at hp
      · rw [List.mem_singleton] at hp
        rw [hp]
        exact ⟨hinside _, hnext⟩
      · exact Action.blockPoints_invariant hI level hnext actions hg.2 point hp

end

/-- An invariant that holds before a program holds at each of its points. -/
theorem Line.points_invariant (hI : Builder.Invariant given I) {builder : Builder}
    (h : I 0 builder) (lines : List Line) (hg : ∀ brought ∈ Line.elements lines, given brought) :
    ∀ point ∈ Line.points builder lines, point.Inside ∧ I point.level point.now := by
  induction lines generalizing builder with
  | nil =>
    intro point hp
    exact absurd hp List.not_mem_nil
  | cons line lines ih =>
    intro point hp
    simp only [Line.elements, List.flatMap_cons, List.forall_mem_append] at hg
    simp only [Line.points, List.mem_append] at hp
    obtain hp | hp := hp
    · exact Call.points_invariant hI 0 h line.call hg.1 point hp
    · split at hp
      · exact absurd hp List.not_mem_nil
      · exact ih (hI.calls line.call hg.1 h) hg.2 point hp

/-- An invariant that holds before a program holds after it. -/
theorem Line.runAll_invariant (hI : Builder.Invariant given I) {builder : Builder}
    (h : I 0 builder) (lines : List Line) (hg : ∀ brought ∈ Line.elements lines, given brought) :
    I 0 (Line.runAll builder lines).2 := by
  induction lines generalizing builder with
  | nil => exact h
  | cons line lines ih =>
    simp only [Line.elements, List.flatMap_cons, List.forall_mem_append] at hg
    have hs := hI.calls line.call hg.1 h
    rw [Line.runAll_cons]
    simp only
    split
    · exact hs
    · exact ih hs hg.2

end

end HtmlDoc
