import HtmlDoc.Attributes

/-!
Bindings: what one operation on a key does to attributes. It answers the value that the key had,
decides what is found under this key from then on, and leaves the entries under all other keys as
they are, in their order.
-/

namespace HtmlDoc

namespace Entries

/-- The entries under all keys but one. -/
def others (key : String) (entries : Entries) : Entries :=
  entries.filter fun entry => entry.1 ≠ key

theorem lookup_cons (key : String) (entry : String × AttrValue) (entries : Entries) :
    List.lookup key (entry :: entries) =
      if entry.1 = key then some entry.2 else List.lookup key entries := by
  obtain ⟨other, value⟩ := entry
  by_cases h : other = key
  · simp [h]
  · have hne : (key == other) = false := by simpa using Ne.symm h
    simp [List.lookup_cons, h, hne]

theorem keys_cons (entry : String × AttrValue) (entries : Entries) :
    keys (entry :: entries) = entry.1 :: keys entries := rfl

theorem others_cons (key : String) (entry : String × AttrValue) (entries : Entries) :
    others key (entry :: entries) =
      if entry.1 = key then others key entries else entry :: others key entries := by
  by_cases h : entry.1 = key <;> simp [others, h]

theorem insert_fst (key : String) (value : AttrValue) (entries : Entries) :
    (insert key value entries).1 = entries.lookup key := by
  induction entries with
  | nil => rfl
  | cons entry entries ih =>
    rw [lookup_cons, insert]
    split
    · rfl
    · exact ih

theorem remove_fst (key : String) (entries : Entries) :
    (remove key entries).1 = entries.lookup key := by
  induction entries with
  | nil => rfl
  | cons entry entries ih =>
    rw [lookup_cons, remove]
    split
    · rfl
    · exact ih

theorem lookup_insert (key : String) (value : AttrValue) (entries : Entries) :
    (insert key value entries).2.lookup key = some value := by
  induction entries with
  | nil => simp [insert]
  | cons entry entries ih =>
    rw [insert]
    split
    · simp
    · rename_i h
      simpa only [lookup_cons, if_neg h] using ih

theorem others_insert (key : String) (value : AttrValue) (entries : Entries) :
    others key (insert key value entries).2 = others key entries := by
  induction entries with
  | nil => simp [insert, others]
  | cons entry entries ih =>
    rw [insert]
    split
    · rename_i h
      simp only [others_cons, h, if_true]
    · rename_i h
      simp only [others_cons, if_neg h, ih]

theorem others_remove (key : String) (entries : Entries) :
    others key (remove key entries).2 = others key entries := by
  induction entries with
  | nil => rfl
  | cons entry entries ih =>
    rw [remove]
    split
    · rename_i h
      simp only [others_cons, if_pos h]
    · rename_i h
      simp only [others_cons, if_neg h, ih]

/-- What is found under a key is among the entries under all keys but another. -/
theorem lookup_others {key other : String} (h : other ≠ key) (entries : Entries) :
    (others key entries).lookup other = entries.lookup other := by
  induction entries with
  | nil => rfl
  | cons entry entries ih =>
    by_cases hk : entry.1 = key
    · have ho : entry.1 ≠ other := fun e => h (e.symm.trans hk)
      rw [others_cons, if_pos hk, lookup_cons, if_neg ho, ih]
    · rw [others_cons, if_neg hk, lookup_cons, lookup_cons, ih]

theorem keys_remove (key : String) (entries : Entries) :
    keys (remove key entries).2 = (keys entries).erase key := by
  induction entries with
  | nil => rfl
  | cons entry entries ih =>
    rw [keys_cons, List.erase_cons, remove]
    by_cases h : entry.1 = key
    · simp only [if_pos h, beq_iff_eq]
    · simp only [if_neg h, beq_iff_eq, keys_cons, ih]

theorem lookup_isSome (key : String) (entries : Entries) :
    (entries.lookup key).isSome = true ↔ key ∈ keys entries := by
  induction entries with
  | nil => simp [keys]
  | cons entry entries ih =>
    rw [lookup_cons, keys_cons, List.mem_cons]
    split
    · rename_i h
      simp [h]
    · rename_i h
      rw [ih, or_iff_right (Ne.symm h)]

end Entries

namespace Attributes

variable (attrs : Attributes) (key : String)

/-- The entries under all keys but one. -/
def others : Entries := Entries.others key attrs.entries

theorem insert_fst (value : AttrValue) : (attrs.insert key value).1 = attrs.get? key :=
  Entries.insert_fst key value attrs.entries

theorem remove_fst : (attrs.remove key).1 = attrs.get? key :=
  Entries.remove_fst key attrs.entries

theorem others_insert (value : AttrValue) :
    (attrs.insert key value).2.others key = attrs.others key :=
  Entries.others_insert key value attrs.entries

theorem others_remove : (attrs.remove key).2.others key = attrs.others key :=
  Entries.others_remove key attrs.entries

theorem get?_isSome : (attrs.get? key).isSome = true ↔ key ∈ attrs.keys :=
  Entries.lookup_isSome key attrs.entries

theorem get?_eq_none : attrs.get? key = none ↔ key ∉ attrs.keys := by
  rw [← get?_isSome, Option.not_isSome_iff_eq_none]

theorem keys_insert (value : AttrValue) :
    (attrs.insert key value).2.keys = if key ∈ attrs.keys then attrs.keys else attrs.keys ++ [key] :=
  Entries.keys_insert key value attrs.entries

theorem keys_remove : (attrs.remove key).2.keys = attrs.keys.erase key :=
  Entries.keys_remove key attrs.entries

variable {attrs key}

/-- Where the entries under all other keys are the same, the other keys have the same values. -/
theorem get?_of_others {left right : Attributes} {other : String}
    (h : left.others key = right.others key) (ho : other ≠ key) :
    left.get? other = right.get? other := by
  have hl : (left.others key).lookup other = left.get? other := Entries.lookup_others ho _
  have hr : (right.others key).lookup other = right.get? other := Entries.lookup_others ho _
  rw [← hl, h, hr]

theorem get?_insert (other : String) (value : AttrValue) :
    (attrs.insert key value).2.get? other = if other = key then some value else attrs.get? other := by
  split
  · rename_i h
    rw [h]
    exact Entries.lookup_insert key value attrs.entries
  · rename_i h
    exact get?_of_others (others_insert attrs key value) h

theorem get?_remove (other : String) :
    (attrs.remove key).2.get? other = if other = key then none else attrs.get? other := by
  split
  · rename_i h
    -- No key comes twice, so the entry taken away was the only one under the key.
    rw [h, get?_eq_none, keys_remove]
    exact attrs.nodup.not_mem_erase
  · rename_i h
    exact get?_of_others (others_remove attrs key) h

theorem contains_eq (key : String) : attrs.contains key = (attrs.get? key).isSome := by
  rw [Bool.eq_iff_iff, get?_isSome]
  simp [contains, keys, Entries.keys]

end Attributes

end HtmlDoc
