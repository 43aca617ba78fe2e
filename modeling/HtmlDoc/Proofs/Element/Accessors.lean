import HtmlDoc.Element
import HtmlDoc.Proofs.Attributes.Bindings
import HtmlDoc.Proofs.Name.Accessor

/-!
Accessors: setting an attribute by name against unbinding a key. A name is kept in lower case, and a
key is unbound as it stands. Main statement: unbinding the name takes back what was set under it if
and only if the name is in lower case, and unbinding its lowercase form always does.
-/

namespace HtmlDoc.Element

/-- Unbinding `key` takes back `value`, which has just been set under the accessor name `name`: the
value is answered, the name has no value any more, and the entries under all other keys are those
from before the setting, in their order. -/
structure TakesBack (before set : Element) (key name : String) (value : AttrValue) : Prop where
  answered : (set.unbindAttr key).1 = some value
  gone : (set.unbindAttr key).2.getAttr name = .ok none
  kept : (set.unbindAttr key).2.attrs.others (Name.lower name) =
    before.attrs.others (Name.lower name)

theorem unbindAttr_fst (element : Element) (key : String) :
    (element.unbindAttr key).1 = element.attrs.get? key :=
  Attributes.remove_fst element.attrs key

theorem getAttr_unbindAttr (element : Element) (key : String) {name : String}
    (h : Name.isAccessorName name = true) : (element.unbindAttr key).2.getAttr name =
      .ok (if Name.lower name = key then none else element.attrs.get? (Name.lower name)) := by
  rw [getAttr_eq_ok, ← Attributes.get?_remove]
  exact ⟨h, rfl⟩

section Setting

variable {element changed : Element} {name : String} {value : AttrValue}
  {previous : Option AttrValue}

theorem get?_setAttr (hset : element.setAttr name value = .ok (previous, changed)) (key : String) :
    changed.attrs.get? key = if key = Name.lower name then some value else element.attrs.get? key := by
  obtain ⟨-, -, rfl⟩ := setAttr_eq_ok.mp hset
  exact Attributes.get?_insert key value

theorem others_setAttr (hset : element.setAttr name value = .ok (previous, changed)) :
    changed.attrs.others (Name.lower name) = element.attrs.others (Name.lower name) := by
  obtain ⟨-, -, rfl⟩ := setAttr_eq_ok.mp hset
  exact Attributes.others_insert element.attrs (Name.lower name) value

theorem takesBack_lower (hset : element.setAttr name value = .ok (previous, changed)) :
    TakesBack element changed (Name.lower name) name value where
  answered := by
    rw [unbindAttr_fst, get?_setAttr hset, if_pos rfl]
  gone := by
    rw [getAttr_unbindAttr changed _ (setAttr_eq_ok.mp hset).1, if_pos rfl]
  kept := by
    rw [← others_setAttr hset]
    exact Attributes.others_remove changed.attrs (Name.lower name)

/-- Another key than the one that was set answers what it had before, and the name keeps its
value. -/
theorem unbindAttr_of_ne (hset : element.setAttr name value = .ok (previous, changed)) {key : String}
    (hne : key ≠ Name.lower name) : (changed.unbindAttr key).1 = element.attrs.get? key ∧
      (changed.unbindAttr key).2.getAttr name = .ok (some value) := by
  constructor
  · rw [unbindAttr_fst, get?_setAttr hset, if_neg hne]
  · rw [getAttr_unbindAttr changed _ (setAttr_eq_ok.mp hset).1, if_neg (Ne.symm hne),
      get?_setAttr hset, if_pos rfl]

theorem takesBack_iff (hset : element.setAttr name value = .ok (previous, changed)) (key : String) :
    TakesBack element changed key name value ↔ key = Name.lower name := by
  constructor
  · intro hback
    by_contra hne
    -- Unbinding another key leaves the name its value, so that it is not gone.
    have hgone := hback.gone
    rw [(unbindAttr_of_ne hset hne).2] at hgone
    cases hgone
  · rintro rfl
    exact takesBack_lower hset

end Setting

/-- Setting an attribute by an accessor name succeeds, and unbinding the lowercase form of the name
takes it back. Unbinding the name itself does so if and only if the name holds no capital letter and
no kelvin sign. Otherwise it answers what was kept under this very spelling before, and the name
still has the value that was set. -/
theorem setAttr_takenBack_iff (element : Element) {name : String}
    (h : Name.isAccessorName name = true) (value : AttrValue) :
    ∃ previous changed, element.setAttr name value = .ok (previous, changed) ∧
      TakesBack element changed (Name.lower name) name value ∧
      (TakesBack element changed name name value ↔
        ∀ c ∈ name.toList, c.isUpper = false ∧ c ≠ '\u212A') ∧
      (¬ TakesBack element changed name name value →
        (changed.unbindAttr name).1 = element.attrs.get? name ∧
          (changed.unbindAttr name).2.getAttr name = .ok (some value)) := by
  obtain ⟨previous, changed, hset⟩ :
      ∃ previous changed, element.setAttr name value = .ok (previous, changed) :=
    ⟨_, _, setAttr_eq_ok.mpr ⟨h, rfl, rfl⟩⟩
  refine ⟨previous, changed, hset, takesBack_lower hset, ?exact, ?missed⟩
  case exact =>
    rw [takesBack_iff hset, eq_comm, Name.lower_eq_self_iff]
  case missed =>
    intro hkept
    rw [takesBack_iff hset] at hkept
    exact unbindAttr_of_ne hset hkept

/-- Where the key `ID` is bound as it stands, setting the name `ID` binds `id` beside it, and unbinding
`ID` takes the older one away. -/
theorem setAttr_takenBack_id :
    let element : Element := ⟨"div", .ofList [("ID", .nil)], [], false, false, true⟩
    let value : AttrValue := .text (.plain "main")
    ∃ previous changed, element.setAttr "ID" value = .ok (previous, changed) ∧
      TakesBack element changed "id" "ID" value ∧
      (changed.unbindAttr "ID").1 = some .nil ∧
        (changed.unbindAttr "ID").2.getAttr "ID" = .ok (some value) := by
  intro element value
  obtain ⟨previous, changed, hset, hlower, hexact, hmissed⟩ :=
    setAttr_takenBack_iff element (by decide : Name.isAccessorName "ID" = true) value
  have hcapital : ¬ TakesBack element changed "ID" "ID" value := by
    rw [hexact]
    intro hlower
    exact absurd (hlower 'I' (by decide)).1 (by decide)
  exact ⟨previous, changed, hset, hlower, hmissed hcapital⟩

/-- Unbinding a name does not take back every setting: not that of `ID`. -/
theorem not_every_setting_takenBack :
    ¬ ∀ (element changed : Element) (name : String) (value : AttrValue) (previous : Option AttrValue),
      element.setAttr name value = .ok (previous, changed) →
        TakesBack element changed name name value := by
  intro hall
  have hset : Element.setAttr ⟨"div", .empty, [], false, false, true⟩ "ID" (.text (.plain "main")) =
      .ok (none, ⟨"div", .ofList [("id", .text (.plain "main"))], [], false, false, true⟩) := by
    rfl
  have hanswered := (hall _ _ _ _ _ hset).answered
  exact absurd hanswered (by decide)

end HtmlDoc.Element
