import HtmlDoc.Proofs.Builder.Points

/-!
Balance. Main statement: at each point of a run as many elements are open as there are blocks around
it, the scope of the block speaks of the innermost of them, and everything outside is as it was when
the block was entered; after each step the builder is as deep as before.
-/

namespace HtmlDoc

/-- What holds at a point of a run that was started with `start` elements open. The scope finds an
element, the one that nodes are pushed to and that changes are made to, and nothing else has changed
since the block was entered. -/
structure Point.Framed (start : Nat) (point : Point) : Prop where
  depth : point.now.depth = start + point.level
  frame : ∃ element, point.now = { point.around with opened := element :: point.around.opened } ∧
    point.scope.element? point.now = some element ∧
    (∀ node, point.now.push node =
      { point.around with opened := element.withChild node :: point.around.opened }) ∧
    ∀ (ρ : Type) (change : Element → ρ × Element), point.scope.update point.now change =
      (some (change element).1,
        { point.around with opened := (change element).2 :: point.around.opened })

theorem Point.Inside.framed {point : Point} (h : point.Inside) {start : Nat}
    (hd : point.now.depth = start + point.level) : point.Framed start := by
  obtain ⟨level, scope, ⟨root, outer, layout⟩, now⟩ := point
  simp only [Point.Inside] at h
  obtain ⟨rfl, element, rfl⟩ := h
  exact ⟨hd, element, rfl, Scope.element?_innermost root element outer layout, fun _ => rfl,
    fun _ change => Scope.update_innermost root element outer layout change⟩

theorem Builder.depth_push? (builder : Builder) (node : Option Node) :
    (builder.push? node).depth = builder.depth := by
  cases node with
  | none => rfl
  | some node => exact Builder.depth_push builder node

theorem Call.depth_run (builder : Builder) (call : Call) :
    (call.run builder).2.depth = builder.depth := by
  rw [(Call.run_meaning builder call).2, Builder.depth_push?]

theorem Scope.depth_update {ρ : Type} (scope : Scope) (builder : Builder)
    (change : Element → ρ × Element) : (scope.update builder change).2.depth = builder.depth := by
  simp only [Scope.update]
  cases scope.element? builder with
  | none => rfl
  | some element => simp only [Builder.depth, List.length_reverse, List.length_set]

theorem Action.depth_run (scope : Scope) (builder : Builder) :
    (action : Action) → (action.run scope builder).2.depth = builder.depth
  | .call made => Call.depth_run builder made
  | .edit change => Scope.depth_update scope builder change.run
  | .element => rfl
  | .assign given => Scope.depth_update scope builder fun _ => ((), given)
  | .attempt tried => Action.depth_run scope builder tried

/-- As many elements are open as there were at the start and blocks have been entered since. -/
theorem Builder.depth_invariant (start : Nat) :
    Builder.Invariant (fun _ => True) fun level builder => builder.depth = start + level where
  opens _ _ h := congrArg Nat.succ h
  acts _ _ h := h
  calls call _ h := (Call.depth_run _ call).trans h

/-- A block that was opened leaves its element open and nothing else, and the loop at its end closes
this one element. -/
theorem Call.closing_addWith (builder : Builder) (call : TagCall) (block : List Action)
    {element : Element} (he : call.element = .ok element) :
    Builder.Closing (builder.depth + 1) 1
      (Action.runBlock ⟨builder.depth + 1⟩
        { builder with opened := element :: builder.opened } block).2
      ((Call.addWith call block).run builder).2 := by
  obtain ⟨-, -, ha⟩ :=
    Action.runBlock_meaning builder.root element builder.opened builder.layout block
  -- The block may have pushed, changed and failed; one element is open on top of the old ones.
  have hl : (Action.runBlock ⟨builder.depth + 1⟩
      { builder with opened := element :: builder.opened } block).2 =
      ⟨builder.root, (Action.blockMeaning builder.layout builder.root element block).value ::
        builder.opened, builder.layout⟩ := ha
  rw [Call.run_addWith_ok builder call block he]
  change Builder.Closing _ 1 _ (Builder.closeTo (builder.depth + 1) (Action.runBlock
    ⟨builder.depth + 1⟩ { builder with opened := element :: builder.opened } block).2)
  rw [hl]
  exact Builder.closing_innermost builder.root _ builder.opened builder.layout

/-- Balance, for a builder with any elements open. At each point of a program, or of a block that
runs in the innermost of the open elements, the scope and the stack agree and the outside is
untouched. Each step leaves the builder as deep as it was. A step with a block does so by one round
of closing, and one whose element cannot be made leaves the builder as it was. -/
theorem scopes_balanced (builder : Builder) :
    (∀ lines, ∀ point ∈ Line.points builder lines, point.Framed builder.depth) ∧
    (∀ element actions, ∀ point ∈ Action.blockPoints 0 ⟨builder.depth + 1⟩ builder
      { builder with opened := element :: builder.opened } actions,
      point.Framed (builder.depth + 1)) ∧
    (∀ call : Call, (call.run builder).2.depth = builder.depth) ∧
    (∀ scope action, (Action.run scope builder action).2.depth = builder.depth) ∧
    ∀ call block,
      match TagCall.element call with
      | .ok element => Builder.Closing (builder.depth + 1) 1
          (Action.runBlock ⟨builder.depth + 1⟩
            { builder with opened := element :: builder.opened } block).2
          ((Call.addWith call block).run builder).2
      | .error _ => ((Call.addWith call block).run builder).2 = builder := by
  refine ⟨?_, ?_, Call.depth_run builder,
    fun scope action => Action.depth_run scope builder action, ?_⟩
  · intro lines point hp
    obtain ⟨hin, hd⟩ := Line.points_invariant (Builder.depth_invariant builder.depth) rfl lines
      (fun _ _ => trivial) point hp
    exact hin.framed hd
  · intro element actions point hp
    obtain ⟨hin, hd⟩ := Action.blockPoints_invariant (Builder.depth_invariant (builder.depth + 1)) 0
      rfl actions (fun _ _ => trivial) point hp
    exact hin.framed hd
  · intro call block
    cases he : call.element with
    | ok element => exact Call.closing_addWith builder call block he
    | error error => rw [Call.run_addWith_error builder call block he]; rfl

/-- Two blocks deep, between a push and the error that ends the inner block. -/
theorem scopes_balanced_before_error : ∃ point ∈ Line.points (.empty {})
    [⟨.addWith (.container .div .empty .empty)
      [.attempt (.call (.addWith (.container .p .empty .empty)
        [.call (.push (.text (.plain "x"))), .call (.raise (.callback "stop"))]))], false⟩],
    point.level = 2 ∧ point.now.opened.map Element.tag = ["p", "div"] ∧ point.Framed 0 := by
  refine ⟨⟨2, ⟨2⟩, ⟨[], [⟨"div", .empty, [], false, false, true⟩], {}⟩,
    ⟨[], [⟨"p", .empty, [.text (.plain "x")], false, false, true⟩,
      ⟨"div", .empty, [], false, false, true⟩], {}⟩⟩,
    ?hmem, rfl, rfl, (scopes_balanced (.empty {})).1 _ _ ?hmem⟩
  exact List.mem_of_getElem? (i := 2) rfl

end HtmlDoc
