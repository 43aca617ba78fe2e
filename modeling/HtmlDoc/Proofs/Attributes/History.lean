import Mathlib.Data.Set.Card
import HtmlDoc.Proofs.Attributes.Bindings

/-!
Histories: what attributes are after any operations on them, told by the history alone. Main
statement: a key has the value of its last binding, unless it was unbound since; the keys stand in
the order in which they were bound first since they were last unbound; and an operation on one key
answers the value that this key had and touches no other.
-/

namespace HtmlDoc.Attributes

/-- An operation that changes attributes, or makes new ones in their place. -/
inductive Operation where
  | insert (key : String) (value : AttrValue)
  | adding (key : String) (value : AttrValue)
  | remove (key : String)
  /-- New attributes from a list, in which a key may come more than once. -/
  | ofList (entries : Entries)

def Operation.run (attrs : Attributes) : Operation → Attributes
  | insert key value => (attrs.insert key value).2
  | adding key value => attrs.adding key value
  | remove key => (attrs.remove key).2
  | ofList entries => .ofList entries

/-- The attributes after a history of operations. -/
def after (history : List Operation) : Attributes := history.foldl Operation.run empty

/-- What happens to the keys: one is bound or unbound, or all are unbound. -/
inductive Change where
  | bind (key : String) (value : AttrValue)
  | unbind (key : String)
  | clear

/-- The changes that an operation stands for, those of a list one after the other. -/
def Operation.changes : Operation → List Change
  | insert key value | adding key value => [.bind key value]
  | remove key => [.unbind key]
  | ofList entries => .clear :: entries.map fun entry => .bind entry.1 entry.2

def changesOf (history : List Operation) : List Change := history.flatMap Operation.changes

namespace Change

/-- Whether the change unbinds `key`. -/
def Removes (key : String) : Change → Prop
  | bind _ _ => False
  | unbind other => other = key
  | clear => True

/-- Whether the change binds `key` or unbinds it. -/
def Concerns (key : String) : Change → Prop
  | bind other _ | unbind other => other = key
  | clear => True

def apply (attrs : Attributes) : Change → Attributes
  | bind key value => (attrs.insert key value).2
  | unbind key => (attrs.remove key).2
  | clear => empty

end Change

variable {changes : List Change} {attrs : Attributes} {key : String} {last : Change}

/-- The last binding of `key` gives it `value`, and it has not been unbound since. -/
def LastBinding (changes : List Change) (key : String) (value : AttrValue) : Prop :=
  ∃ before after, changes = before ++ .bind key value :: after ∧
    ∀ change ∈ after, ¬ change.Concerns key

/-- `key` has been bound, and not been unbound since. -/
def Bound (changes : List Change) (key : String) : Prop :=
  ∃ before value after, changes = before ++ .bind key value :: after ∧
    ∀ change ∈ after, ¬ change.Removes key

/-- The change at `place` binds `key` where it was not bound, and it has not been unbound since. -/
def FirstBinding (changes : List Change) (key : String) (place : Nat) : Prop :=
  ∃ before value after, changes = before ++ .bind key value :: after ∧ before.length = place ∧
    ¬ Bound before key ∧ ∀ change ∈ after, ¬ change.Removes key

/-- A place in a longer history is its end or a place in the history before. -/
theorem append_singleton_eq_iff {before after : List Change} {here : Change} :
    changes ++ [last] = before ++ here :: after ↔ (after = [] ∧ changes = before ∧ last = here) ∨
      ∃ rest, after = rest ++ [last] ∧ changes = before ++ here :: rest := by
  constructor
  · intro h
    rcases List.eq_nil_or_concat after with rfl | ⟨rest, final, rfl⟩
    · obtain ⟨hbefore, hlast⟩ := List.append_inj' h rfl
      exact Or.inl ⟨rfl, hbefore, List.singleton_inj.mp hlast⟩
    · rw [List.concat_eq_append, ← List.cons_append, ← List.append_assoc] at h
      obtain ⟨hrest, hlast⟩ := List.append_inj' h rfl
      rw [List.singleton_inj] at hlast
      exact Or.inr ⟨rest, by rw [List.concat_eq_append, hlast], hrest⟩
  · rintro (⟨rfl, rfl, rfl⟩ | ⟨rest, rfl, rfl⟩)
    · rfl
    · rw [List.append_assoc, List.cons_append]

/-- A change that is wanted, told what came before it, and nothing behind it that undoes it. -/
def Since (wanted : List Change → Change → Prop) (undoes : Change → Prop) (changes : List Change) :
    Prop :=
  ∃ before here after, changes = before ++ here :: after ∧ wanted before here ∧
    ∀ change ∈ after, ¬ undoes change

theorem since_append {wanted : List Change → Change → Prop} {undoes : Change → Prop} :
    Since wanted undoes (changes ++ [last]) ↔
      wanted changes last ∨ (¬ undoes last ∧ Since wanted undoes changes) := by
  simp only [Since, append_singleton_eq_iff]
  constructor
  · rintro ⟨before, here, after, ⟨rfl, rfl, rfl⟩ | ⟨rest, rfl, rfl⟩, hwanted, hlater⟩
    · exact Or.inl hwanted
    · rw [List.forall_mem_append, List.forall_mem_singleton] at hlater
      exact Or.inr ⟨hlater.2, before, here, rest, rfl, hwanted, hlater.1⟩
  · rintro (hwanted | ⟨hlast, before, here, after, rfl, hwanted, hlater⟩)
    · exact ⟨changes, last, [], Or.inl ⟨rfl, rfl, rfl⟩, hwanted, by simp⟩
    · refine ⟨before, here, after ++ [last], Or.inr ⟨after, rfl, rfl⟩, hwanted, ?_⟩
      rw [List.forall_mem_append, List.forall_mem_singleton]
      exact ⟨hlater, hlast⟩

theorem lastBinding_iff_since {value : AttrValue} : LastBinding changes key value ↔
    Since (fun _ here => here = .bind key value) (Change.Concerns key) changes := by
  simp [LastBinding, Since]

theorem bound_iff_since : Bound changes key ↔
    Since (fun _ here => ∃ value, here = .bind key value) (Change.Removes key) changes := by
  constructor
  · rintro ⟨before, value, after, hcut, hlater⟩
    exact ⟨before, _, after, hcut, ⟨value, rfl⟩, hlater⟩
  · rintro ⟨before, here, after, hcut, ⟨value, rfl⟩, hlater⟩
    exact ⟨before, value, after, hcut, hlater⟩

theorem firstBinding_iff_since {place : Nat} : FirstBinding changes key place ↔
    Since (fun before here => before.length = place ∧ (∃ value, here = .bind key value) ∧
      ¬ Bound before key) (Change.Removes key) changes := by
  constructor
  · rintro ⟨before, value, after, hcut, hplace, hfirst, hlater⟩
    exact ⟨before, _, after, hcut, ⟨hplace, ⟨value, rfl⟩, hfirst⟩, hlater⟩
  · rintro ⟨before, here, after, hcut, ⟨hplace, ⟨value, rfl⟩, hfirst⟩, hlater⟩
    exact ⟨before, value, after, hcut, hplace, hfirst, hlater⟩

theorem lastBinding_append {value : AttrValue} :
    LastBinding (changes ++ [last]) key value ↔
      last = .bind key value ∨ (¬ last.Concerns key ∧ LastBinding changes key value) := by
  rw [lastBinding_iff_since, lastBinding_iff_since, since_append]

theorem bound_append :
    Bound (changes ++ [last]) key ↔
      (∃ value, last = .bind key value) ∨ (¬ last.Removes key ∧ Bound changes key) := by
  rw [bound_iff_since, bound_iff_since, since_append]

theorem firstBinding_append {place : Nat} :
    FirstBinding (changes ++ [last]) key place ↔
      (changes.length = place ∧ (∃ value, last = .bind key value) ∧ ¬ Bound changes key) ∨
        (¬ last.Removes key ∧ FirstBinding changes key place) := by
  rw [firstBinding_iff_since, firstBinding_iff_since, since_append]

theorem FirstBinding.lt_length {place : Nat} (h : FirstBinding changes key place) :
    place < changes.length := by
  obtain ⟨before, value, after, rfl, rfl, -, -⟩ := h
  rw [List.length_append, List.length_cons]
  omega

theorem bound_iff_firstBinding : Bound changes key ↔ ∃ place, FirstBinding changes key place := by
  induction changes using List.reverseRecOn with
  | nil => simp [Bound, FirstBinding]
  | append_singleton changes last ih =>
    rw [bound_append, ih]
    simp only [firstBinding_append, ih]
    constructor
    · rintro (⟨value, rfl⟩ | ⟨hlast, place, hplace⟩)
      · by_cases hbound : ∃ place, FirstBinding changes key place
        · obtain ⟨place, hplace⟩ := hbound
          exact ⟨place, Or.inr ⟨id, hplace⟩⟩
        · exact ⟨changes.length, Or.inl ⟨rfl, ⟨value, rfl⟩, hbound⟩⟩
      · exact ⟨place, Or.inr ⟨hlast, hplace⟩⟩
    · rintro ⟨place, ⟨-, hbinds, -⟩ | ⟨hlast, hplace⟩⟩
      · exact Or.inl hbinds
      · exact Or.inr ⟨hlast, place, hplace⟩

/-- A key that is bound already keeps its place, whatever happens next. -/
theorem FirstBinding.of_append {place : Nat} (hbound : Bound changes key)
    (h : FirstBinding (changes ++ [last]) key place) : FirstBinding changes key place := by
  obtain ⟨-, -, hfirst⟩ | ⟨-, hplace⟩ := firstBinding_append.mp h
  · exact absurd hbound hfirst
  · exact hplace

/-- The order in which two keys were bound first. -/
def BoundBefore (changes : List Change) (earlier later : String) : Prop :=
  ∀ i j, FirstBinding changes earlier i → FirstBinding changes later j → i < j

/-- The attributes are what the changes made of them. -/
structure Remembers (changes : List Change) (attrs : Attributes) : Prop where
  value : ∀ key value, attrs.get? key = some value ↔ LastBinding changes key value
  bound : ∀ key, key ∈ attrs.keys ↔ Bound changes key
  order : attrs.keys.Pairwise (BoundBefore changes)

theorem remembers_empty : Remembers [] empty where
  value key value := by simp [get?, empty, LastBinding]
  bound key := by simp [keys, Entries.keys, empty, Bound]
  order := List.Pairwise.nil

namespace Remembers

/-- Keys that stay keep their order. -/
theorem order_append (h : Remembers changes attrs) (last : Change) {kept : List String}
    (hkept : kept.Sublist attrs.keys) : kept.Pairwise (BoundBefore (changes ++ [last])) := by
  refine (h.order.sublist hkept).imp_of_mem fun hearlier hlater hbefore i j hi hj => ?_
  have hearlier := (h.bound _).mp (hkept.subset hearlier)
  have hlater := (h.bound _).mp (hkept.subset hlater)
  exact hbefore i j (hi.of_append hearlier) (hj.of_append hlater)

theorem insert (h : Remembers changes attrs) (key : String) (value : AttrValue) :
    Remembers (changes ++ [.bind key value]) (attrs.insert key value).2 where
  value other found := by
    rw [get?_insert, lastBinding_append, ← h.value]
    split
    · rename_i heq
      simp [Change.Concerns, heq]
    · rename_i hne
      simp [Change.Concerns, Ne.symm hne]
  bound other := by
    rw [mem_keys_insert, bound_append, ← h.bound]
    simp [Change.Removes, eq_comm]
  order := by
    rw [keys_insert]
    split
    · exact h.order_append _ (List.Sublist.refl _)
    · rename_i hnew
      rw [List.pairwise_append]
      refine ⟨h.order_append _ (List.Sublist.refl _), List.pairwise_singleton _ _, ?_⟩
      -- A new key is bound first by the last change of all, so behind every key that was there.
      intro earlier hearlier later hlater i j hi hj
      rw [List.mem_singleton] at hlater
      have hi := (hi.of_append ((h.bound earlier).mp hearlier)).lt_length
      obtain ⟨rfl, -, -⟩ | ⟨-, hj⟩ := firstBinding_append.mp hj
      · exact hi
      · rw [hlater] at hj
        exact absurd ((h.bound key).mpr (bound_iff_firstBinding.mpr ⟨j, hj⟩)) hnew

theorem remove (h : Remembers changes attrs) (key : String) :
    Remembers (changes ++ [.unbind key]) (attrs.remove key).2 where
  value other found := by
    rw [get?_remove, lastBinding_append, ← h.value]
    split
    · rename_i heq
      simp [Change.Concerns, heq]
    · rename_i hne
      simp [Change.Concerns, Ne.symm hne]
  bound other := by
    have herase : other ∈ attrs.keys.erase key ↔ other ≠ key ∧ other ∈ attrs.keys :=
      attrs.nodup.mem_erase_iff
    rw [keys_remove, herase, bound_append, ← h.bound]
    simp [Change.Removes, eq_comm]
  order := by
    rw [keys_remove]
    exact h.order_append _ List.erase_sublist

theorem clear : Remembers (changes ++ [.clear]) empty where
  value key value := by
    rw [lastBinding_append]
    simp [get?, empty, Change.Concerns]
  bound key := by
    rw [bound_append]
    simp [keys, Entries.keys, empty, Change.Removes]
  order := List.Pairwise.nil

theorem apply (h : Remembers changes attrs) (change : Change) :
    Remembers (changes ++ [change]) (change.apply attrs) := by
  cases change with
  | bind key value => exact h.insert key value
  | unbind key => exact h.remove key
  | clear => exact clear

theorem applyAll (h : Remembers changes attrs) (more : List Change) :
    Remembers (changes ++ more) (more.foldl Change.apply attrs) := by
  induction more generalizing changes attrs with
  | nil => rwa [List.append_nil]
  | cons change more ih =>
    rw [List.append_cons]
    exact ih (h.apply change)

end Remembers

theorem Operation.run_eq (attrs : Attributes) (operation : Operation) :
    operation.run attrs = operation.changes.foldl Change.apply attrs := by
  cases operation with
  | insert key value => rfl
  | adding key value => rfl
  | remove key => rfl
  | ofList entries =>
    rw [changes, List.foldl_cons, List.foldl_map]
    rfl

theorem remembers_after (history : List Operation) :
    Remembers (changesOf history) (after history) := by
  have hafter : after history = (changesOf history).foldl Change.apply empty := by
    simp only [after, changesOf, List.foldl_flatMap, ← Operation.run_eq]
  rw [hafter]
  exact remembers_empty.applyAll (changesOf history)

/-- As many keys are bound as there are entries. -/
theorem ncard_bound (attrs : Attributes) :
    Set.ncard {key | (attrs.get? key).isSome = true} = attrs.size := by
  have hkeys : {key | (attrs.get? key).isSome = true} = (attrs.keys.toFinset : Set String) := by
    ext key
    simp only [get?_isSome, List.coe_toFinset]
  have hnodup : attrs.keys.Nodup := attrs.nodup
  rw [hkeys, Set.ncard_coe_finset, List.toFinset_card_of_nodup hnodup]
  exact List.length_map _

/-- Attributes are a map that remembers the order of insertion, after every history of operations.
Its keys are distinct. A key is found with the value of its last binding, if it was not unbound
since, and the number of entries and the test for a key agree with what is found. The keys stand in
the order of their first bindings since they were last unbound. To bind or unbind a key answers what
was found under it, leaves all other entries as they are, in their order, and leaves a key that was
there in its place if it binds it again. -/
theorem after_ordered (history : List Operation) :
    (after history).keys.Nodup ∧
    (∀ key value, (after history).get? key = some value ↔
      LastBinding (changesOf history) key value) ∧
    (∀ key, (after history).contains key = ((after history).get? key).isSome) ∧
    (after history).size = Set.ncard {key | ((after history).get? key).isSome = true} ∧
    (∀ key, key ∈ (after history).keys ↔ ∃ place, FirstBinding (changesOf history) key place) ∧
    (after history).keys.Pairwise (BoundBefore (changesOf history)) ∧
    ∀ key,
      (∀ value, ((after history).insert key value).1 = (after history).get? key ∧
        ((after history).insert key value).2.others key = (after history).others key ∧
        ((after history).adding key value).others key = (after history).others key ∧
        (key ∈ (after history).keys →
          ((after history).insert key value).2.keys = (after history).keys)) ∧
      ((after history).remove key).1 = (after history).get? key ∧
      ((after history).remove key).2.others key = (after history).others key := by
  have hremembers := remembers_after history
  refine ⟨(after history).nodup, hremembers.value, contains_eq, (ncard_bound _).symm, ?bound,
    hremembers.order, ?operations⟩
  case bound =>
    intro key
    rw [hremembers.bound, bound_iff_firstBinding]
  case operations =>
    intro key
    refine ⟨fun value => ⟨insert_fst _ key value, others_insert _ key value,
      others_insert _ key value, ?_⟩, remove_fst _ key, others_remove _ key⟩
    intro hbound
    rw [keys_insert, if_pos hbound]

/-- A list that binds a key twice, then this key unbound and bound again, then the other one bound
again: it has kept its place, which is now the first. -/
theorem after_ordered_again :
    let history : List Operation := [
      .ofList [("id", .text (.plain "a")), ("class", .flag true), ("id", .text (.plain "b"))],
      .remove "id", .adding "id" .nil, .insert "class" (.flag false)]
    (after history).keys = ["class", "id"] ∧
    LastBinding (changesOf history) "class" (.flag false) ∧
    ((after history).remove "id").1 = some .nil ∧
    ((after history).insert "class" .nil).2.keys = ["class", "id"] := by
  intro history
  obtain ⟨-, hvalue, -, -, -, -, hoperations⟩ := after_ordered history
  have hkeys : (after history).keys = ["class", "id"] := by decide
  refine ⟨hkeys, (hvalue "class" (.flag false)).mp (by decide), ?_, ?_⟩
  · rw [(hoperations "id").2.1]
    decide
  · exact (((hoperations "class").1 .nil).2.2.2 (by rw [hkeys]; decide)).trans hkeys

end HtmlDoc.Attributes
