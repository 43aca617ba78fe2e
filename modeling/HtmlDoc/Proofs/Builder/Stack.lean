import HtmlDoc.Builder.Program

/-!
The stack of open elements: what pushing, closing and changing an element do to it, and what the
loop at the end of a scope does. The lemmas speak of a builder whose innermost open element is
named, `⟨root, element :: outer, layout⟩`, and of the scope that keeps this element open.
-/

namespace HtmlDoc

/-- The element with one more child at the end. -/
def Element.withChild (element : Element) (node : Node) : Element :=
  { element with children := element.children ++ [node] }

namespace Builder

@[simp] theorem push_top (root : List Node) (layout : Layout) (node : Node) :
    push ⟨root, [], layout⟩ node = ⟨root ++ [node], [], layout⟩ := rfl

@[simp] theorem push_innermost (root : List Node) (parent : Element) (outer : List Element)
    (layout : Layout) (node : Node) :
    push ⟨root, parent :: outer, layout⟩ node =
      ⟨root, parent.withChild node :: outer, layout⟩ := rfl

theorem depth_push (builder : Builder) (node : Node) :
    (builder.push node).depth = builder.depth := by
  obtain ⟨root, opened, layout⟩ := builder
  cases opened with
  | nil => rfl
  | cons parent outer => rfl

theorem close_innermost (root : List Node) (element : Element) (outer : List Element)
    (layout : Layout) :
    close ⟨root, element :: outer, layout⟩ = push ⟨root, outer, layout⟩ (.element element) := rfl

theorem depth_close (builder : Builder) : builder.close.depth = builder.depth - 1 := by
  obtain ⟨root, opened, layout⟩ := builder
  cases opened with
  | nil => rfl
  | cons element outer =>
    rw [close_innermost, depth_push]
    rfl

/-- The loop that runs when a scope is left: while `depth` or more elements are open, the innermost
is closed. `rounds` counts the elements it closes until it stops. -/
inductive Closing (depth : Nat) : Nat → Builder → Builder → Prop
  | stop {builder : Builder} : builder.depth < depth → Closing depth 0 builder builder
  | round {rounds : Nat} {builder after : Builder} : depth ≤ builder.depth →
      Closing depth rounds builder.close after → Closing depth (rounds + 1) builder after

theorem closing_closeAtMost {depth : Nat} (hd : 0 < depth) (limit : Nat) (builder : Builder)
    (hl : builder.depth ≤ limit) :
    Closing depth (builder.depth + 1 - depth) builder (closeAtMost depth limit builder) := by
  induction limit generalizing builder with
  | zero =>
    have hz : builder.depth + 1 - depth = 0 := by omega
    rw [hz]
    exact Closing.stop (by omega)
  | succ limit ih =>
    by_cases h : depth ≤ builder.depth
    · -- A round takes one element off, so that one round less is left and the bound still holds.
      have hc : builder.close.depth = builder.depth - 1 := depth_close builder
      have hn : builder.depth + 1 - depth = (builder.close.depth + 1 - depth) + 1 := by omega
      rw [closeAtMost, if_pos h, hn]
      exact Closing.round h (ih builder.close (by omega))
    · have hz : builder.depth + 1 - depth = 0 := by omega
      rw [closeAtMost, if_neg h, hz]
      exact Closing.stop (by omega)

/-- The bound on the rounds never ends the loop: it stops because too few elements are open. -/
theorem closing_closeTo {depth : Nat} (hd : 0 < depth) (builder : Builder) :
    Closing depth (builder.depth + 1 - depth) builder (builder.closeTo depth) :=
  closing_closeAtMost hd builder.depth builder (Nat.le_refl _)

/-- Leaving the scope of the innermost element closes this element and no other. -/
theorem closing_innermost (root : List Node) (element : Element) (outer : List Element)
    (layout : Layout) :
    Closing (outer.length + 1) 1 ⟨root, element :: outer, layout⟩
      (closeTo (outer.length + 1) ⟨root, element :: outer, layout⟩) := by
  have h := closing_closeTo (Nat.succ_pos outer.length) ⟨root, element :: outer, layout⟩
  have hn : depth ⟨root, element :: outer, layout⟩ + 1 - (outer.length + 1) = 1 := by
    simp only [depth, List.length_cons]
    omega
  rwa [hn] at h

theorem closeTo_innermost (root : List Node) (element : Element) (outer : List Element)
    (layout : Layout) :
    closeTo (outer.length + 1) ⟨root, element :: outer, layout⟩ =
      push ⟨root, outer, layout⟩ (.element element) := by
  have h := closing_innermost root element outer layout
  generalize closeTo (outer.length + 1) ⟨root, element :: outer, layout⟩ = after at h
  cases h with
  | round _ h => cases h; rfl

/-- A block that changes nothing but the element it runs in adds this element where it was
opened. -/
theorem within_eq_push {ρ : Type} (builder : Builder) (element left : Element) (result : ρ)
    (block : Scope → Builder → ρ × Builder)
    (hb : block ⟨builder.depth + 1⟩ { builder with opened := element :: builder.opened } =
      (result, { builder with opened := left :: builder.opened })) :
    builder.within element block = (result, builder.push (.element left)) := by
  have hw : builder.within element block =
      ((block ⟨builder.depth + 1⟩ { builder with opened := element :: builder.opened }).1,
        (block ⟨builder.depth + 1⟩ { builder with opened := element :: builder.opened }).2.closeTo
          (builder.depth + 1)) := rfl
  have hc := closeTo_innermost builder.root left builder.opened builder.layout
  rw [hw, hb]
  exact congrArg (Prod.mk result) hc

end Builder

namespace Scope

variable (root : List Node) (element : Element) (outer : List Element) (layout : Layout)

/-- The scope of the innermost element finds this element. -/
theorem element?_innermost :
    element? ⟨outer.length + 1⟩ ⟨root, element :: outer, layout⟩ = some element := by
  -- Scopes count from the outermost element, and the stack starts with the innermost.
  have hl : outer.reverse.length ≤ outer.length := Nat.le_of_eq List.length_reverse
  simp only [element?, List.reverse_cons, Nat.add_sub_cancel]
  rw [List.getElem?_append_right hl, List.length_reverse, Nat.sub_self]
  rfl

/-- Through the scope of the innermost element nothing but this element is changed. -/
theorem update_innermost {ρ : Type} (change : Element → ρ × Element) :
    update ⟨outer.length + 1⟩ ⟨root, element :: outer, layout⟩ change =
      (some (change element).1, ⟨root, (change element).2 :: outer, layout⟩) := by
  have hs : (outer.reverse ++ [element]).set outer.length (change element).2 =
      outer.reverse ++ [(change element).2] := by
    rw [List.set_append_right _ _ (Nat.le_of_eq List.length_reverse), List.length_reverse,
      Nat.sub_self]
    rfl
  simp only [update, element?_innermost, List.reverse_cons, Nat.add_sub_cancel, hs,
    List.reverse_append, List.reverse_nil, List.nil_append, List.reverse_reverse,
    List.cons_append]

end Scope

/-- The error that ends a block or a program after a step: one that the step answers and that is not
caught. -/
def escaping : Except MarkupError Reply → Bool → Option MarkupError
  | .error error, false => some error
  | _, _ => none

section

variable (builder : Builder) (call : TagCall) (block : List Action)

theorem Call.run_addWith_ok {element : Element} (he : call.element = .ok element) :
    (Call.addWith call block).run builder =
      let left := builder.within element fun scope inside => Action.runBlock scope inside block
      left.2.record (left.1.result.map fun _ => .done) left.1.records := by
  simp only [Call.run, Builder.addWith, he]

theorem Call.run_addWith_error {error : MarkupError} (he : call.element = .error error) :
    (Call.addWith call block).run builder = builder.record (.error error) [] := by
  simp only [Call.run, Builder.addWith, he]

end

theorem Action.runBlock_cons (scope : Scope) (builder : Builder) (action : Action)
    (actions : List Action) :
    Action.runBlock scope builder (action :: actions) =
      let step := action.run scope builder
      match escaping step.1.reply action.catches with
      | some error => (⟨.error error, [step.1]⟩, step.2)
      | none =>
        let rest := Action.runBlock scope step.2 actions
        (⟨rest.1.result, step.1 :: rest.1.records⟩, rest.2) := by
  rw [Action.runBlock]
  obtain ⟨⟨reply, depth, size, inner⟩, after⟩ := action.run scope builder
  cases reply with
  | ok reply => rfl
  | error error => cases action.catches <;> rfl

theorem Line.runAll_cons (builder : Builder) (line : Line) (lines : List Line) :
    Line.runAll builder (line :: lines) =
      let step := line.call.run builder
      match escaping step.1.reply line.catches with
      | some error => (⟨.error error, [step.1]⟩, step.2)
      | none =>
        let rest := Line.runAll step.2 lines
        (⟨rest.1.result, step.1 :: rest.1.records⟩, rest.2) := by
  rw [Line.runAll]
  obtain ⟨⟨reply, depth, size, inner⟩, after⟩ := line.call.run builder
  cases reply with
  | ok reply => rfl
  | error error => cases line.catches <;> rfl

end HtmlDoc
