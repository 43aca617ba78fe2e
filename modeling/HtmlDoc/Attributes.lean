import HtmlDoc.AttrValue

/-!
Attributes: a map from keys to values that remembers the order in which its keys came. Setting a key
again keeps its place. Keys are compared as they stand, and no key comes twice.
-/

namespace HtmlDoc

abbrev Entries := List (String × AttrValue)

namespace Entries

/-- Binds `key` in a list of entries, at its old place if it has one and else at the end, and answers
the value it had. -/
def insert (key : String) (value : AttrValue) : Entries → Option AttrValue × Entries
  | [] => (none, [(key, value)])
  | entry :: entries =>
    if entry.1 = key then (some entry.2, (key, value) :: entries)
    else
      let (previous, entries) := insert key value entries
      (previous, entry :: entries)

/-- Unbinds `key` in a list of entries, and answers the value it had. -/
def remove (key : String) : Entries → Option AttrValue × Entries
  | [] => (none, [])
  | entry :: entries =>
    if entry.1 = key then (some entry.2, entries)
    else
      let (previous, entries) := remove key entries
      (previous, entry :: entries)

def keys (entries : Entries) : List String := entries.map (·.1)

theorem keys_insert (key : String) (value : AttrValue) (entries : Entries) :
    keys (insert key value entries).2 =
      if key ∈ keys entries then keys entries else keys entries ++ [key] := by
  induction entries with
  | nil => rfl
  | cons entry entries ih =>
    by_cases h : entry.1 = key
    · simp [insert, keys, h]
    · have hk : key ≠ entry.1 := fun e => h e.symm
      simp only [keys] at ih
      by_cases hm : key ∈ entries.map (·.1)
      · simp [insert, keys, h, hk, hm, ih]
      · simp [insert, keys, h, hk, hm, ih]

theorem keys_remove_sublist (key : String) (entries : Entries) :
    (keys (remove key entries).2).Sublist (keys entries) := by
  induction entries with
  | nil => exact List.Sublist.refl _
  | cons entry entries ih =>
    by_cases h : entry.1 = key
    · simp [remove, keys, h]
    · simpa [remove, keys, h] using ih

theorem nodup_keys_insert (key : String) (value : AttrValue) {entries : Entries}
    (h : (keys entries).Nodup) : (keys (insert key value entries).2).Nodup := by
  rw [keys_insert]
  split
  · exact h
  · rename_i hm
    rw [List.nodup_append]
    refine ⟨h, by simp, ?_⟩
    intro a ha b hb
    rw [List.mem_singleton] at hb
    rintro rfl
    exact hm (hb ▸ ha)

theorem nodup_keys_remove (key : String) {entries : Entries} (h : (keys entries).Nodup) :
    (keys (remove key entries).2).Nodup :=
  List.Nodup.sublist (keys_remove_sublist key entries) h

end Entries

/-- Keys with their values, in the order of insertion. -/
structure Attributes where
  entries : Entries
  nodup : (Entries.keys entries).Nodup
deriving DecidableEq

namespace Attributes

def empty : Attributes := ⟨[], List.nodup_nil⟩

instance : Inhabited Attributes := ⟨empty⟩

/-- The same keys in the same order, with values that are equal up to trust. -/
instance : BEq Attributes := ⟨fun a b => a.entries == b.entries⟩

def keys (attrs : Attributes) : List String := Entries.keys attrs.entries

def size (attrs : Attributes) : Nat := attrs.entries.length

def isEmpty (attrs : Attributes) : Bool := attrs.entries.isEmpty

def get? (attrs : Attributes) (key : String) : Option AttrValue :=
  attrs.entries.lookup key

/-- Whether `key` is bound, if only to nothing. -/
def contains (attrs : Attributes) (key : String) : Bool :=
  attrs.entries.any fun entry => entry.1 = key

/-- Binds `key`, and answers the value it had. The place of a key that is bound already stays the
same. -/
def insert (attrs : Attributes) (key : String) (value : AttrValue) : Option AttrValue × Attributes :=
  let result := Entries.insert key value attrs.entries
  (result.1, ⟨result.2, Entries.nodup_keys_insert key value attrs.nodup⟩)

def remove (attrs : Attributes) (key : String) : Option AttrValue × Attributes :=
  let result := Entries.remove key attrs.entries
  (result.1, ⟨result.2, Entries.nodup_keys_remove key attrs.nodup⟩)

/-- The attributes with `key` bound, for whoever does not ask for the value it had. -/
def adding (attrs : Attributes) (key : String) (value : AttrValue) : Attributes :=
  (attrs.insert key value).2

theorem mem_keys_insert {attrs : Attributes} {key other : String} {value : AttrValue} :
    other ∈ (attrs.insert key value).2.keys ↔ other = key ∨ other ∈ attrs.keys := by
  simp only [keys, insert, Entries.keys_insert]
  split
  · rename_i hm
    constructor
    · exact Or.inr
    · rintro (rfl | h)
      · exact hm
      · exact h
  · rw [List.mem_append, List.mem_singleton, or_comm]

theorem mem_keys_of_remove {attrs : Attributes} {key other : String}
    (h : other ∈ (attrs.remove key).2.keys) : other ∈ attrs.keys :=
  (Entries.keys_remove_sublist key attrs.entries).subset h

/-- Binds the keys of a list one after the other. -/
def insertAll (attrs : Attributes) (entries : Entries) : Attributes :=
  entries.foldl (fun attrs entry => (attrs.insert entry.1 entry.2).2) attrs

/-- The attributes bound by a list of entries. Of several values for one key the last counts. -/
def ofList (entries : Entries) : Attributes :=
  empty.insertAll entries

end Attributes

end HtmlDoc
