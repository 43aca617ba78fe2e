import HtmlDoc.Member
import HtmlDoc.Proofs.Name.Accessor

/-!
Members: what calls by name come to. A call that succeeds does what one of the operations on the
element does, and the others are refused. Main statement: a call succeeds and changes the element
just as the operation that it stands for, and a call that is refused changes nothing.
-/

namespace HtmlDoc

/-- What an argument puts in the place of the children: a text, a tree, or loose nodes. -/
inductive Arg.StandsForChildren : Arg → Children → Prop
  | text (fragment : Fragment) : StandsForChildren (.value (.text fragment)) (.text fragment)
  | tree (nodes : List Node) : StandsForChildren (.tree nodes) (.tree nodes)
  | nodes (nodes : List Node) : StandsForChildren (.nodes nodes) (.nodes nodes)

/-- The value that an argument gives an attribute. An element stands for its markup, which is not
trusted. -/
inductive Arg.StandsForValue : Arg → AttrValue → Prop
  | value (value : AttrValue) : StandsForValue (.value value) value
  | element (element : Element) : StandsForValue (.element element) (.text (.plain element.text))

theorem Arg.toChildren?_eq_some {arg : Arg} {children : Children} :
    arg.toChildren? = some children ↔ arg.StandsForChildren children := by
  constructor
  · intro h
    match arg, h with
    | .value (.text fragment), rfl => exact .text fragment
    | .tree items, rfl => exact .tree items
    | .nodes items, rfl => exact .nodes items
  · intro h
    cases h <;> rfl

theorem Arg.toChildren?_eq_none {arg : Arg} :
    arg.toChildren? = none ↔ ∀ children, ¬ arg.StandsForChildren children := by
  simp only [← Arg.toChildren?_eq_some, Option.eq_none_iff_forall_ne_some, ne_eq]

namespace Element

theorem valueOfArg_eq_ok {member : String} {arg : Arg} {value : AttrValue} :
    valueOfArg member arg = .ok value ↔ arg.StandsForValue value := by
  constructor
  · intro h
    match arg, h with
    | .value value, rfl => exact .value value
    | .element element, rfl => exact .element element
  · rintro (value | element) <;> rfl

theorem valueOfArg_of_not_standsFor {arg : Arg} (h : ∀ value, ¬ arg.StandsForValue value)
    (member : String) :
    valueOfArg member arg = .error (.invalidArgument member .attributeValue (some arg.kind)) := by
  match arg with
  | .value value => exact absurd (.value value) (h value)
  | .element element => exact absurd (.element element) (h _)
  | .tree _ | .nodes _ | .attrs _ => rfl

theorem Access.ofMember_setter (name : String) : Access.ofMember (name ++ "=") = ⟨name, true⟩ := by
  have htext : (name ++ "=").toList.reverse = '=' :: name.toList.reverse := by
    simp
  rw [ofMember, htext]
  simp

theorem Access.ofMember_of_ne {member : String} (h : ∀ name : String, member ≠ name ++ "=") :
    Access.ofMember member = ⟨member, false⟩ := by
  rw [ofMember]
  split
  · rename_i name hname
    have htext : member = String.ofList name.reverse ++ "=" := by
      rw [← String.toList_inj, ← List.reverse_inj, hname]
      simp
    exact absurd htext (h _)
  · rfl

/-- A member that is neither an accessor name nor one with an equals sign behind it. The name of the
children is an accessor name like any other. -/
def UnknownMember (member : String) : Prop :=
  ∀ name, Name.isAccessorName name = true → member ≠ name ∧ member ≠ name ++ "="

theorem member_cases (member : String) : Name.isAccessorName member = true ∨
    (∃ name, Name.isAccessorName name = true ∧ member = name ++ "=") ∨ UnknownMember member := by
  by_cases hget : Name.isAccessorName member = true
  · exact Or.inl hget
  by_cases hset : ∃ name, Name.isAccessorName name = true ∧ member = name ++ "="
  · exact Or.inr (Or.inl hset)
  · refine Or.inr (Or.inr fun name hname => ⟨?_, ?_⟩)
    · rintro rfl
      exact hget hname
    · intro h
      exact hset ⟨name, hname, h⟩

variable (element : Element)

/-- The calls by name that succeed, each with its answer and the element it leaves. Reading takes no
argument and no block. Setting takes one argument, and whether a block is given makes no
difference. -/
inductive Accesses : String → List Arg → Bool → Option AttrValue → Element → Prop
  | getChildren : Accesses childrenMember [] false (some (.text (.markup element.inner.text))) element
  | getAttr {name : String} {answer : Option AttrValue} (hname : Name.isAccessorName name = true)
      (hne : name ≠ childrenMember) (hget : element.getAttr name = .ok answer) :
      Accesses name [] false answer element
  | setChildren {arg : Arg} {children : Children} (block : Bool)
      (harg : arg.StandsForChildren children) :
      Accesses (childrenMember ++ "=") [arg] block none (element.assignChildren children)
  | setAttr {name : String} {arg : Arg} {value : AttrValue} {previous : Option AttrValue}
      {changed : Element} (block : Bool) (hname : Name.isAccessorName name = true)
      (hne : name ≠ childrenMember) (harg : arg.StandsForValue value)
      (hset : element.setAttr name value = .ok (previous, changed)) :
      Accesses (name ++ "=") [arg] block previous changed

/-- The calls by name that are refused. An unknown member is told whatever is given to it, and a
block given to a member that is read is told whatever the arguments are. -/
inductive Refuses : String → List Arg → Bool → MarkupError → Prop
  | unknown {member : String} (args : List Arg) (block : Bool) (hunknown : UnknownMember member) :
      Refuses member args block (.unknownMember member)
  | block {name : String} (args : List Arg) (hname : Name.isAccessorName name = true) :
      Refuses name args true (.blockOnAccessor element.tag name)
  | getArgs {name : String} {args : List Arg} (hname : Name.isAccessorName name = true)
      (hargs : args ≠ []) : Refuses name args false (.tooManyArguments name args.length 0)
  | setNothing {name : String} (block : Bool) (hname : Name.isAccessorName name = true) :
      Refuses (name ++ "=") [] block (.invalidArgument (name ++ "=") .oneValue none)
  | setArgs {name : String} {args : List Arg} (block : Bool)
      (hname : Name.isAccessorName name = true) (hargs : 1 < args.length) :
      Refuses (name ++ "=") args block (.tooManyArguments (name ++ "=") args.length 1)
  | setChildren {arg : Arg} (block : Bool) (harg : ∀ children, ¬ arg.StandsForChildren children) :
      Refuses (childrenMember ++ "=") [arg] block (.invalidChildren element.tag arg.kind)
  | setAttr {name : String} {arg : Arg} (block : Bool) (hname : Name.isAccessorName name = true)
      (hne : name ≠ childrenMember) (harg : ∀ value, ¬ arg.StandsForValue value) :
      Refuses (name ++ "=") [arg] block
        (.invalidArgument (name ++ "=") .attributeValue (some arg.kind))

variable {element}

theorem isAccessorName_childrenMember : Name.isAccessorName childrenMember = true := by decide

theorem not_unknownMember {member : String}
    (h : Name.isAccessorName (Access.ofMember member).name = true) : ¬ UnknownMember member := by
  intro hunknown
  by_cases hset : ∃ name : String, member = name ++ "="
  · obtain ⟨name, rfl⟩ := hset
    rw [Access.ofMember_setter] at h
    exact (hunknown name h).2 rfl
  · rw [Access.ofMember_of_ne (not_exists.mp hset)] at h
    exact (hunknown member h).1 rfl

theorem callMember_unknown {member : String} (h : UnknownMember member) (args : List Arg)
    (block : Bool) :
    element.callMember member args block = (.error (.unknownMember member), element) := by
  have hname : ¬ Name.isAccessorName (Access.ofMember member).name = true :=
    fun hname => not_unknownMember hname h
  have hne : (Access.ofMember member).name ≠ childrenMember := by
    intro heq
    rw [heq] at hname
    exact hname isAccessorName_childrenMember
  rw [callMember, if_pos ⟨hne, by simpa using hname⟩]

theorem callMember_get {name : String} (hname : Name.isAccessorName name = true) (args : List Arg)
    (block : Bool) :
    element.callMember name args block = (element.readMember name args block, element) := by
  -- There is no equals sign in an accessor name, so none is split off.
  have hne : ∀ setter : String, name ≠ setter ++ "=" := by
    rintro setter rfl
    apply Name.not_mem_of_isAccessorName hname '=' (by decide) (by decide)
    rw [String.toList_append]
    exact List.mem_append_right _ List.mem_cons_self
  have haccess := Access.ofMember_of_ne hne
  simp [callMember, haccess, hname]

theorem callMember_set {name : String} (hname : Name.isAccessorName name = true) {args : List Arg}
    {previous : Option AttrValue} {changed : Element}
    (hwrite : element.writeMember (name ++ "=") name args = .ok (previous, changed))
    (block : Bool) : element.callMember (name ++ "=") args block = (.ok previous, changed) := by
  simp [callMember, Access.ofMember_setter, hname, hwrite]

theorem callMember_set_error {name : String} (hname : Name.isAccessorName name = true)
    {args : List Arg} {error : MarkupError}
    (hwrite : element.writeMember (name ++ "=") name args = .error error)
    (block : Bool) : element.callMember (name ++ "=") args block = (.error error, element) := by
  simp [callMember, Access.ofMember_setter, hname, hwrite]

theorem Accesses.callMember_eq {member : String} {args : List Arg} {block : Bool}
    {answer : Option AttrValue} {changed : Element}
    (h : element.Accesses member args block answer changed) :
    element.callMember member args block = (.ok answer, changed) := by
  cases h with
  | getChildren =>
    rw [callMember_get isAccessorName_childrenMember]
    rfl
  | getAttr hname hne hget =>
    rw [callMember_get hname]
    simp [readMember, hne, hget]
  | setChildren block harg =>
    apply callMember_set isAccessorName_childrenMember
    exact writeMember_eq_ok.mpr
      ⟨_, rfl, Or.inl ⟨rfl, _, Arg.toChildren?_eq_some.mpr harg, rfl, rfl⟩⟩
  | setAttr block hname hne harg hset =>
    apply callMember_set hname
    exact writeMember_eq_ok.mpr ⟨_, rfl, Or.inr ⟨hne, _, valueOfArg_eq_ok.mpr harg, hset⟩⟩

theorem Refuses.callMember_eq {member : String} {args : List Arg} {block : Bool}
    {error : MarkupError} (h : element.Refuses member args block error) :
    element.callMember member args block = (.error error, element) := by
  cases h with
  | unknown _ _ hunknown => exact callMember_unknown hunknown args block
  | block _ hname =>
    rw [callMember_get hname]
    rfl
  | getArgs hname hargs =>
    rw [callMember_get hname]
    simp [readMember, hargs]
  | setNothing _ hname => exact callMember_set_error hname rfl block
  | setArgs _ hname hargs =>
    apply callMember_set_error hname
    match args, hargs with
    | _ :: _ :: _, _ => rfl
  | setChildren _ harg =>
    apply callMember_set_error isAccessorName_childrenMember
    have hnone := Arg.toChildren?_eq_none.mpr harg
    simp only [writeMember, onlyArg, bind, Except.bind, hnone, if_true]
    rfl
  | setAttr _ hname hne harg =>
    apply callMember_set_error hname
    have hvalue := valueOfArg_of_not_standsFor harg
    simp only [writeMember, onlyArg, bind, Except.bind, hvalue, if_neg hne]

variable (element)

/-- A read of a known member answers, or is refused for its block or its arguments. -/
theorem accesses_or_refuses_get {name : String} (hname : Name.isAccessorName name = true)
    (args : List Arg) (block : Bool) :
    (∃ answer changed, element.Accesses name args block answer changed) ∨
      ∃ error, element.Refuses name args block error := by
  -- A block is refused whatever the arguments are, so they matter only without one.
  cases block with
  | true => exact Or.inr ⟨_, .block args hname⟩
  | false =>
    by_cases hargs : args = []
    · left
      subst hargs
      by_cases hchildren : name = childrenMember
      · subst hchildren
        exact ⟨_, _, .getChildren⟩
      · exact ⟨_, _, .getAttr hname hchildren (getAttr_eq_ok.mpr ⟨hname, rfl⟩)⟩
    · exact Or.inr ⟨_, .getArgs hname hargs⟩

theorem accesses_or_refuses_set {name : String} (hname : Name.isAccessorName name = true)
    (args : List Arg) (block : Bool) :
    (∃ answer changed, element.Accesses (name ++ "=") args block answer changed) ∨
      ∃ error, element.Refuses (name ++ "=") args block error := by
  match args with
  | [] => exact Or.inr ⟨_, .setNothing block hname⟩
  | first :: second :: rest =>
    exact Or.inr ⟨_, .setArgs block hname (by simp)⟩
  | [arg] =>
    by_cases hchildren : name = childrenMember
    · subst hchildren
      by_cases harg : ∃ children, arg.StandsForChildren children
      · obtain ⟨children, harg⟩ := harg
        exact Or.inl ⟨_, _, .setChildren block harg⟩
      · exact Or.inr ⟨_, .setChildren block (not_exists.mp harg)⟩
    · by_cases harg : ∃ value, arg.StandsForValue value
      · obtain ⟨value, harg⟩ := harg
        -- Setting an attribute by an accessor name never fails.
        have hset : element.setAttr name value = .ok (_, _) :=
          setAttr_eq_ok.mpr ⟨hname, rfl, rfl⟩
        exact Or.inl ⟨_, _, .setAttr block hname hchildren harg hset⟩
      · exact Or.inr ⟨_, .setAttr block hname hchildren (not_exists.mp harg)⟩

theorem accesses_or_refuses (member : String) (args : List Arg) (block : Bool) :
    (∃ answer changed, element.Accesses member args block answer changed) ∨
      ∃ error, element.Refuses member args block error := by
  obtain hname | ⟨name, hname, rfl⟩ | hunknown := member_cases member
  · exact accesses_or_refuses_get element hname args block
  · exact accesses_or_refuses_set element hname args block
  · exact Or.inr ⟨_, .unknown args block hunknown⟩

/-- Calls by name are the operations under other names. A call succeeds exactly where an operation
stands behind it, with the answer and the element that this operation gives. Every other call fails
with the error of the first rule that it breaks, and leaves the element as it was. -/
theorem callMember_exact (member : String) (args : List Arg) (block : Bool) :
    (∀ answer changed, element.callMember member args block = (.ok answer, changed) ↔
      element.Accesses member args block answer changed) ∧
    (∀ error changed, element.callMember member args block = (.error error, changed) ↔
      element.Refuses member args block error ∧ changed = element) := by
  refine ⟨fun answer changed => ⟨?succeeds, Accesses.callMember_eq⟩,
    fun error changed => ⟨?fails, ?refused⟩⟩
  case succeeds =>
    intro hcall
    -- Whichever relation holds gives the result of the call, so it is the result at hand.
    obtain ⟨found, left, h⟩ | ⟨error, h⟩ := element.accesses_or_refuses member args block
    · rw [h.callMember_eq] at hcall
      cases hcall
      exact h
    · rw [h.callMember_eq] at hcall
      cases hcall
  case fails =>
    intro hcall
    obtain ⟨found, left, h⟩ | ⟨error, h⟩ := element.accesses_or_refuses member args block
    · rw [h.callMember_eq] at hcall
      cases hcall
    · rw [h.callMember_eq] at hcall
      cases hcall
      exact ⟨h, rfl⟩
  case refused =>
    rintro ⟨h, rfl⟩
    exact h.callMember_eq

/-- Of two equals signs one is left, and so the name is unknown before the block is looked at. -/
example : Element.callMember ⟨"p", .empty, [], false, false, true⟩ "id==" [] true =
    (.error (.unknownMember "id=="), ⟨"p", .empty, [], false, false, true⟩) := by
  rfl

end Element

end HtmlDoc
