import HtmlDoc.Proofs.Builder.Stack

/-!
What a builder program means, told without a stack. A call adds a node or none to the level it is
made on, a block makes one element out of the element it runs in, and a program makes one list of
nodes out of another. Main statement: running a program on a builder gives the nodes that it means,
and every call in it comes to what it means.
-/

namespace HtmlDoc

/-- What a call came to: its answer, and what the calls of its block came to. -/
structure Outcome where
  reply : Except MarkupError Reply
  inner : List Outcome

mutual

/-- What a record tells of the answers alone. -/
def Record.outcome : Record → Outcome
  | ⟨reply, _, _, inner⟩ => ⟨reply, Record.outcomes inner⟩

/-- What records tell of the answers alone. -/
def Record.outcomes : List Record → List Outcome
  | [] => []
  | record :: records => record.outcome :: Record.outcomes records

end

/-- The meaning of a sequence of steps: its result, the outcomes of the steps that were taken, and
what became of the thing they worked on. -/
structure Meaning (α : Type) where
  result : Except MarkupError Unit
  outcomes : List Outcome
  value : α

/-- The element with a child more, if there is one to add. -/
def Element.withChild? (element : Element) (node : Option Node) : Element :=
  node.elim element element.withChild

mutual

/-- What a call comes to, and the node that it adds to the level it is made on. The nodes at the top
are for the calls that ask about them. -/
def Call.meaning (layout : Layout) (root : List Node) : Call → Outcome × Option Node
  | .push node => (⟨.ok .done, []⟩, some node)
  | .add call =>
    match call.element with
    | .ok element => (⟨.ok .done, []⟩, some (.element element))
    | .error error => (⟨.error error, []⟩, none)
  | .addWith call block =>
    match call.element with
    | .ok element =>
      let inside := Action.blockMeaning layout root element block
      (⟨inside.result.map fun _ => .done, inside.outcomes⟩, some (.element inside.value))
    | .error error => (⟨.error error, []⟩, none)
  | .raise error => (⟨.error error, []⟩, none)
  | .isEmpty => (⟨.ok (.truth root.isEmpty), []⟩, none)
  | .items => (⟨.ok (.nodes root), []⟩, none)
  | .render => (⟨.ok (.fragment (layout.treeMarkup root 0 true).trust), []⟩, none)

/-- What an action comes to, and what it makes of the element that its block runs in. -/
def Action.meaning (layout : Layout) (root : List Node) (element : Element) :
    Action → Outcome × Element
  | .call call =>
    let (outcome, node) := call.meaning layout root
    (outcome, element.withChild? node)
  | .edit edit =>
    let (reply, element) := edit.run element
    (⟨reply, []⟩, element)
  | .element => (⟨.ok (.element element), []⟩, element)
  | .assign element => (⟨.ok .done, []⟩, element)
  | .attempt action => action.meaning layout root element

/-- What a block makes of the element it runs in. An error that is not caught ends it; what was done
before stays. -/
def Action.blockMeaning (layout : Layout) (root : List Node) (element : Element) :
    List Action → Meaning Element
  | [] => ⟨.ok (), [], element⟩
  | action :: actions =>
    let (outcome, element) := action.meaning layout root element
    match escaping outcome.reply action.catches with
    | some error => ⟨.error error, [outcome], element⟩
    | none =>
      let rest := Action.blockMeaning layout root element actions
      { rest with outcomes := outcome :: rest.outcomes }

end

/-- What a program makes of the nodes at the top. -/
def Line.meaning (layout : Layout) (root : List Node) : List Line → Meaning (List Node)
  | [] => ⟨.ok (), [], root⟩
  | line :: lines =>
    let (outcome, node) := line.call.meaning layout root
    let root := root ++ node.toList
    match escaping outcome.reply line.catches with
    | some error => ⟨.error error, [outcome], root⟩
    | none =>
      let rest := Line.meaning layout root lines
      { rest with outcomes := outcome :: rest.outcomes }

/-- Appends a node where there is one. -/
def Builder.push? (builder : Builder) (node : Option Node) : Builder :=
  node.elim builder builder.push

namespace Builder

theorem push?_top (root : List Node) (layout : Layout) (node : Option Node) :
    push? ⟨root, [], layout⟩ node = ⟨root ++ node.toList, [], layout⟩ := by
  cases node with
  | none => simp only [push?, Option.elim, Option.toList, List.append_nil]
  | some node => rfl

theorem push?_innermost (root : List Node) (parent : Element) (outer : List Element)
    (layout : Layout) (node : Option Node) :
    push? ⟨root, parent :: outer, layout⟩ node =
      ⟨root, parent.withChild? node :: outer, layout⟩ := by
  cases node with
  | none => rfl
  | some node => rfl

end Builder

theorem Record.outcome_reply (record : Record) : record.outcome.reply = record.reply := by
  obtain ⟨reply, depth, size, inner⟩ := record
  rfl

mutual

/-- A call comes to what it means, and does nothing to the builder but add the node that it means,
whatever elements are open. -/
theorem Call.run_meaning (builder : Builder) (call : Call) :
    (call.run builder).1.outcome = (call.meaning builder.layout builder.root).1 ∧
      (call.run builder).2 = builder.push? (call.meaning builder.layout builder.root).2 := by
  cases call with
  | push node => exact ⟨rfl, rfl⟩
  | add call =>
    simp only [Call.run, Call.meaning, Builder.add, Builder.record]
    cases call.element with
    | ok element => exact ⟨rfl, rfl⟩
    | error error => exact ⟨rfl, rfl⟩
  | addWith call block =>
    cases he : call.element with
    | ok element =>
      -- The block changes its own element only, and leaving the scope adds what became of it.
      obtain ⟨hr, ho, ha⟩ :=
        Action.runBlock_meaning builder.root element builder.opened builder.layout block
      have hw := Builder.within_eq_push builder element _ _
        (fun scope inside => Action.runBlock scope inside block) (Prod.ext rfl ha)
      rw [Call.run_addWith_ok builder call block he, hw]
      simp only [Call.meaning, he]
      exact ⟨by simp only [Builder.record, Record.outcome, Builder.depth, hr, ho], rfl⟩
    | error error =>
      rw [Call.run_addWith_error builder call block he]
      simp only [Call.meaning, he]
      exact ⟨rfl, rfl⟩
  | raise error => exact ⟨rfl, rfl⟩
  | isEmpty => exact ⟨rfl, rfl⟩
  | items => exact ⟨rfl, rfl⟩
  | render => exact ⟨rfl, rfl⟩

/-- An action in the scope of the innermost element comes to what it means, and changes this element
alone. -/
theorem Action.run_meaning (root : List Node) (element : Element) (outer : List Element)
    (layout : Layout) (action : Action) :
    (action.run ⟨outer.length + 1⟩ ⟨root, element :: outer, layout⟩).1.outcome =
        (action.meaning layout root element).1 ∧
      (action.run ⟨outer.length + 1⟩ ⟨root, element :: outer, layout⟩).2 =
        ⟨root, (action.meaning layout root element).2 :: outer, layout⟩ := by
  cases action with
  | call call =>
    -- What the call adds goes to the innermost element, which is the one of the block.
    have hc := Call.run_meaning ⟨root, element :: outer, layout⟩ call
    refine ⟨hc.1, ?_⟩
    rw [Action.run, hc.2, Builder.push?_innermost]
    rfl
  | edit edit =>
    rw [Action.run, Scope.update_innermost]
    exact ⟨rfl, rfl⟩
  | element =>
    rw [Action.run, Scope.element?_innermost]
    exact ⟨rfl, rfl⟩
  | assign assigned =>
    rw [Action.run, Scope.update_innermost]
    exact ⟨rfl, rfl⟩
  | attempt action => exact Action.run_meaning root element outer layout action

/-- A block in the scope of the innermost element comes to what it means, and changes this element
alone. -/
theorem Action.runBlock_meaning (root : List Node) (element : Element) (outer : List Element)
    (layout : Layout) (block : List Action) :
    (Action.runBlock ⟨outer.length + 1⟩ ⟨root, element :: outer, layout⟩ block).1.result =
        (Action.blockMeaning layout root element block).result ∧
      Record.outcomes
          (Action.runBlock ⟨outer.length + 1⟩ ⟨root, element :: outer, layout⟩ block).1.records =
        (Action.blockMeaning layout root element block).outcomes ∧
      (Action.runBlock ⟨outer.length + 1⟩ ⟨root, element :: outer, layout⟩ block).2 =
        ⟨root, (Action.blockMeaning layout root element block).value :: outer, layout⟩ := by
  cases block with
  | nil => exact ⟨rfl, rfl, rfl⟩
  | cons action actions =>
    obtain ⟨ho, ha⟩ := Action.run_meaning root element outer layout action
    obtain ⟨hres, hout, hend⟩ := Action.runBlock_meaning root
      (action.meaning layout root element).2 outer layout actions
    have hr : (action.run ⟨outer.length + 1⟩ ⟨root, element :: outer, layout⟩).1.reply =
        (action.meaning layout root element).1.reply := by
      rw [← ho, Record.outcome_reply]
    rw [Action.runBlock_cons]
    simp only [Action.blockMeaning, hr, ha]
    -- The answers are the same, so both sides stop here or both go on.
    cases escaping (action.meaning layout root element).1.reply action.catches with
    | some error => exact ⟨rfl, by simp only [Record.outcomes, ho], rfl⟩
    | none => exact ⟨hres, by simp only [Record.outcomes, ho, hout], hend⟩

end

/-- A program run on a builder with nothing open leaves the nodes that it means and nothing open.
Its result and what each of its steps came to, those inside blocks too, are what they mean. -/
theorem Line.runAll_eq_meaning (layout : Layout) (root : List Node) (lines : List Line) :
    (Line.runAll ⟨root, [], layout⟩ lines).2 =
        ⟨(Line.meaning layout root lines).value, [], layout⟩ ∧
      (Line.runAll ⟨root, [], layout⟩ lines).1.result = (Line.meaning layout root lines).result ∧
      Record.outcomes (Line.runAll ⟨root, [], layout⟩ lines).1.records =
        (Line.meaning layout root lines).outcomes := by
  induction lines generalizing root with
  | nil => exact ⟨rfl, rfl, rfl⟩
  | cons line lines ih =>
    obtain ⟨ho, ha⟩ := Call.run_meaning ⟨root, [], layout⟩ line.call
    obtain ⟨hend, hres, hout⟩ := ih (root ++ (line.call.meaning layout root).2.toList)
    have hr : (line.call.run ⟨root, [], layout⟩).1.reply =
        (line.call.meaning layout root).1.reply := by
      rw [← ho, Record.outcome_reply]
    rw [Builder.push?_top] at ha
    rw [Line.runAll_cons]
    simp only [Line.meaning, hr, ha]
    cases escaping (line.call.meaning layout root).1.reply line.catches with
    | some error => exact ⟨rfl, rfl, by simp only [Record.outcomes, ho]⟩
    | none => exact ⟨hend, hres, by simp only [Record.outcomes, ho, hout]⟩

/-- A block that gives up halfway still adds its element, with what was pushed before. -/
example (layout : Layout) (node : Node) (error : MarkupError) :
    (Line.meaning layout []
      [⟨.addWith (.void .br .empty) [.call (.push node), .call (.raise error), .call (.push node)],
        true⟩]).value = [.element ⟨"br", .empty, [node], true, false, false⟩] := rfl

end HtmlDoc
