import HtmlDoc.Element

/-!
Members of elements by name. The name of an attribute reads it, the name with an equals sign sets
it, and `html` and `html=` do the same for the children.
-/

namespace HtmlDoc.Element

/-- The member that stands for the children. -/
def childrenMember : String := "html"

structure Access where
  name : String
  sets : Bool
deriving DecidableEq

/-- Splits the equals sign from the name of a member. Only one belongs to the call. -/
def Access.ofMember (member : String) : Access :=
  match member.toList.reverse with
  | '=' :: name => ⟨String.ofList name.reverse, true⟩
  | _ => ⟨member, false⟩

/-- The only argument of a call that sets something. -/
def onlyArg (member : String) : List Arg → Except MarkupError Arg
  | [] => .error (.invalidArgument member .oneValue none)
  | [arg] => .ok arg
  | args => .error (.tooManyArguments member args.length 1)

/-- The value that an argument stands for. An element stands for its text. -/
def valueOfArg (member : String) : Arg → Except MarkupError AttrValue
  | .value value => .ok value
  | .element element => .ok (.ofElement element)
  | arg => .error (.invalidArgument member .attributeValue (some arg.kind))

/-- Reads a member. Neither arguments nor a block may be given. -/
def readMember (element : Element) (member : String) (args : List Arg) (block : Bool) :
    Except MarkupError (Option AttrValue) :=
  -- Of several faults the block is told first, then the number of arguments, then the name.
  if block then .error (.blockOnAccessor element.tag member)
  else if !args.isEmpty then .error (.tooManyArguments member args.length 0)
  else if member = childrenMember then .ok (some (.text element.inner))
  else element.getAttr member

/-- Sets the member `name`, called as `member`, and answers the value it had. The children answer
nothing. -/
def writeMember (element : Element) (member name : String) (args : List Arg) :
    Except MarkupError (Option AttrValue × Element) := do
  let arg ← onlyArg member args
  if name = childrenMember then
    match arg.toChildren? with
    | some children => return (none, element.assignChildren children)
    | none => throw (.invalidChildren element.tag arg.kind)
  else
    let value ← valueOfArg member arg
    element.setAttr name value

theorem onlyArg_eq_ok {member : String} {args : List Arg} {arg : Arg} :
    onlyArg member args = .ok arg ↔ args = [arg] := by
  match args with
  | [] => exact ⟨nofun, nofun⟩
  | [only] => simp [onlyArg]
  | first :: second :: rest => exact ⟨nofun, nofun⟩

theorem writeMember_eq_ok {element changed : Element} {member name : String} {args : List Arg}
    {previous : Option AttrValue} :
    element.writeMember member name args = .ok (previous, changed) ↔ ∃ arg, args = [arg] ∧
      ((name = childrenMember ∧ ∃ children, arg.toChildren? = some children ∧
          previous = none ∧ changed = element.assignChildren children) ∨
        (name ≠ childrenMember ∧ ∃ value, valueOfArg member arg = .ok value ∧
          element.setAttr name value = .ok (previous, changed))) := by
  simp only [writeMember, bind_eq_ok, onlyArg_eq_ok]
  refine exists_congr fun arg => and_congr_right fun _ => ?_
  by_cases hn : name = childrenMember
  · cases hc : arg.toChildren? with
    | none => simp [hn, throw, throwThe, MonadExceptOf.throw]
    | some children =>
      simp [hn, pure, Except.pure, eq_comm]
  · simp [hn, bind_eq_ok]

/-- Calls a member by name. The element is changed only by a call that succeeds. -/
def callMember (element : Element) (member : String) (args : List Arg) (block : Bool) :
    Except MarkupError (Option AttrValue) × Element :=
  let access := Access.ofMember member
  if access.name ≠ childrenMember ∧ !Name.isAccessorName access.name then
    (.error (.unknownMember member), element)
  else if access.sets then
    match element.writeMember member access.name args with
    | .ok (previous, element) => (.ok previous, element)
    | .error error => (.error error, element)
  else (element.readMember member args block, element)

/-- A call by name leaves the element as it was, or as the setting of the member leaves it. -/
theorem callMember_changes (element : Element) (member : String) (args : List Arg) (block : Bool) :
    (element.callMember member args block).2 = element ∨
      ∃ previous, element.writeMember member (Access.ofMember member).name args =
        .ok (previous, (element.callMember member args block).2) := by
  simp only [callMember]
  split
  · exact Or.inl rfl
  · split
    · split
      · rename_i hw
        exact Or.inr ⟨_, hw⟩
      · exact Or.inl rfl
    · exact Or.inl rfl

end HtmlDoc.Element
