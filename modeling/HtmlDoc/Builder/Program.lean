import HtmlDoc.Builder.Basic
import HtmlDoc.Edit

/-!
Builder programs: the calls on a builder as data, with the blocks that run in the elements they open.
A program is run on a builder, and leaves a record of every call that was made. An error ends the
block it arises in, and becomes the error of the call that holds the block, unless the action was
an attempt.
-/

namespace HtmlDoc

mutual

/-- A call on a builder. -/
inductive Call where
  | push (node : Node)
  | add (call : TagCall)
  | addWith (call : TagCall) (block : List Action)
  | raise (error : MarkupError)
  | isEmpty
  | items
  | render

/-- What a block can do: any call, and work on the element that it runs in. -/
inductive Action where
  | call (call : Call)
  | edit (edit : ElementEdit)
  | element
  | assign (element : Element)
  /-- An action whose error does not end the block. -/
  | attempt (action : Action)

end

/-- What came of a call: its answer, how many elements were open and how many nodes were at the top
when it was finished, and the records of the block that it ran. -/
structure Record where
  reply : Except MarkupError Reply
  depth : Nat
  size : Nat
  inner : List Record

/-- The result of a block, and the records of what it did. -/
structure Trace where
  result : Except MarkupError Unit
  records : List Record

def Builder.record (builder : Builder) (reply : Except MarkupError Reply) (inner : List Record) :
    Record × Builder :=
  (⟨reply, builder.depth, builder.size, inner⟩, builder)

/-- Whether the block goes on after an error of the action. -/
def Action.catches : Action → Bool
  | .attempt _ => true
  | _ => false

mutual

def Call.run (builder : Builder) : Call → Record × Builder
  | .push node => (builder.push node).record (.ok .done) []
  | .add call =>
    let (result, after) := builder.add call
    after.record (result.map fun _ => .done) []
  | .addWith call block =>
    match builder.addWith call fun scope inside => Action.runBlock scope inside block with
    | (.ok trace, after) => after.record (trace.result.map fun _ => .done) trace.records
    | (.error error, after) => after.record (.error error) []
  | .raise error => builder.record (.error error) []
  | .isEmpty => builder.record (.ok (.truth builder.isEmpty)) []
  | .items => builder.record (.ok (.nodes builder.root)) []
  | .render => builder.record (.ok (.fragment builder.render)) []

def Action.run (scope : Scope) (builder : Builder) : Action → Record × Builder
  | .call call => call.run builder
  | .edit edit =>
    let (reply, after) := scope.update builder edit.run
    after.record (reply.getD (.ok .done)) []
  | .element => builder.record (.ok ((scope.element? builder).elim .done .element)) []
  | .assign element =>
    let (_, after) := scope.update builder fun _ => ((), element)
    after.record (.ok .done) []
  | .attempt action => action.run scope builder

/-- Runs a block in a scope, to its end or to the first error of an action that is no attempt. -/
def Action.runBlock (scope : Scope) (builder : Builder) : List Action → Trace × Builder
  | [] => (⟨.ok (), []⟩, builder)
  | action :: actions =>
    let (record, after) := action.run scope builder
    match record.reply, action.catches with
    | .error error, false => (⟨.error error, [record]⟩, after)
    | _, _ =>
      let (trace, after) := Action.runBlock scope after actions
      (⟨trace.result, record :: trace.records⟩, after)

end

/-- A call at the top of a program. `catches` says that the program goes on after its error. -/
structure Line where
  call : Call
  catches : Bool

/-- Runs the lines of a program, to its end or to the first error that is not caught. -/
def Line.runAll (builder : Builder) : List Line → Trace × Builder
  | [] => (⟨.ok (), []⟩, builder)
  | line :: lines =>
    let (record, after) := line.call.run builder
    match record.reply, line.catches with
    | .error error, false => (⟨.error error, [record]⟩, after)
    | _, _ =>
      let (trace, after) := runAll after lines
      (⟨trace.result, record :: trace.records⟩, after)

end HtmlDoc
