import HtmlDoc.Proofs.Attributes.Bindings

/-!
Merging: what attributes become when a list of entries is bound over them, one after the other. Of
several values for one key the last counts, keys that were there keep their places, and new ones
follow in the order of the list.
-/

namespace HtmlDoc

namespace Entries

/-- Where no key comes twice, the last entry under a key is the first. -/
theorem lookup_reverse {entries : Entries} (h : (keys entries).Nodup) (key : String) :
    entries.reverse.lookup key = entries.lookup key := by
  induction entries with
  | nil => rfl
  | cons entry entries ih =>
    rw [keys_cons, List.nodup_cons] at h
    rw [List.reverse_cons, List.lookup_append, ih h.2, lookup_cons, lookup_cons]
    split
    · rename_i heq
      have hnone : entries.lookup key = none := by
        rw [← Option.not_isSome_iff_eq_none, lookup_isSome, ← heq]
        exact h.1
      rw [hnone]
      rfl
    · exact Option.or_none

theorem insert_of_not_mem {key : String} {entries : Entries} (h : key ∉ keys entries)
    (value : AttrValue) : (insert key value entries).2 = entries ++ [(key, value)] := by
  induction entries with
  | nil => rfl
  | cons entry entries ih =>
    rw [keys_cons, List.mem_cons, not_or] at h
    rw [insert, if_neg (Ne.symm h.1)]
    exact congrArg (entry :: ·) (ih h.2)

/-- Binding a key again puts the new value where the old one was. -/
theorem insert_eq_set {key : String} {entries : Entries} (h : (keys entries).Nodup) {place : Nat}
    (hplace : (keys entries)[place]? = some key) (value : AttrValue) :
    (insert key value entries).2 = entries.set place (key, value) := by
  induction entries generalizing place with
  | nil => cases hplace
  | cons entry entries ih =>
    rw [keys_cons] at h hplace
    obtain ⟨hfirst, hrest⟩ := List.nodup_cons.mp h
    rw [insert]
    cases place with
    | zero =>
      have heq : entry.1 = key := Option.some.inj hplace
      rw [if_pos heq]
      rfl
    | succ place =>
      -- The key stands further on, so it is not the first one too.
      have hne : entry.1 ≠ key := by
        rintro rfl
        exact hfirst (List.mem_of_getElem? hplace)
      rw [if_neg hne]
      exact congrArg (entry :: ·) (ih hrest hplace)

end Entries

namespace Attributes

/-- The entries under keys that are not among these. -/
def outside (attrs : Attributes) (keys : List String) : Entries :=
  attrs.entries.filter fun entry => entry.1 ∉ keys

theorem insertAll_cons (attrs : Attributes) (entry : String × AttrValue) (entries : Entries) :
    attrs.insertAll (entry :: entries) = (attrs.insert entry.1 entry.2).2.insertAll entries := rfl

theorem insertAll_append (attrs : Attributes) (left right : Entries) :
    attrs.insertAll (left ++ right) = (attrs.insertAll left).insertAll right :=
  List.foldl_append

/-- The last value for a key counts, and what was there before if there is none. -/
theorem get?_insertAll (attrs : Attributes) (entries : Entries) (key : String) :
    (attrs.insertAll entries).get? key = (entries.reverse.lookup key).or (attrs.get? key) := by
  induction entries generalizing attrs with
  | nil => rfl
  | cons entry entries ih =>
    rw [insertAll_cons, ih, get?_insert, List.reverse_cons, List.lookup_append, Option.or_assoc,
      Entries.lookup_cons]
    by_cases h : key = entry.1
    · rw [if_pos h, if_pos h.symm]
      rfl
    · rw [if_neg h, if_neg (Ne.symm h)]
      rfl

/-- Keys that are there already keep their places, and the others follow in their order. -/
theorem keys_insertAll (attrs : Attributes) {entries : Entries} (h : (Entries.keys entries).Nodup) :
    (attrs.insertAll entries).keys =
      attrs.keys ++ (Entries.keys entries).filter fun key => key ∉ attrs.keys := by
  induction entries generalizing attrs with
  | nil => exact (List.append_nil _).symm
  | cons entry entries ih =>
    rw [Entries.keys_cons, List.nodup_cons] at h
    rw [insertAll_cons, ih _ h.2, keys_insert, Entries.keys_cons]
    by_cases hmem : entry.1 ∈ attrs.keys
    · rw [if_pos hmem, List.filter_cons_of_neg (by simpa using hmem)]
    · -- The new key is not in the rest of the list, which is looked through as before.
      have hrest : ((Entries.keys entries).filter fun key => key ∉ attrs.keys ++ [entry.1]) =
          (Entries.keys entries).filter fun key => key ∉ attrs.keys := by
        apply List.filter_congr
        intro key hkey
        have hne : key ≠ entry.1 := by
          rintro rfl
          exact h.1 hkey
        simp only [List.mem_append, List.mem_singleton, hne, or_false]
      rw [if_neg hmem, List.filter_cons_of_pos (by simpa using hmem), hrest, List.append_assoc,
        List.singleton_append]

/-- Keys that are there already keep their places, whatever is bound. -/
theorem keys_prefix_insertAll (attrs : Attributes) (entries : Entries) :
    attrs.keys <+: (attrs.insertAll entries).keys := by
  induction entries generalizing attrs with
  | nil => exact List.prefix_refl _
  | cons entry entries ih =>
    have hfirst : attrs.keys <+: (attrs.insert entry.1 entry.2).2.keys := by
      rw [keys_insert]
      split
      · exact List.prefix_refl _
      · exact List.prefix_append _ _
    exact hfirst.trans (ih _)

theorem outside_insert (attrs : Attributes) {keys : List String} {key : String} (h : key ∈ keys)
    (value : AttrValue) : (attrs.insert key value).2.outside keys = attrs.outside keys := by
  -- What is outside the keys is outside this one of them.
  have hothers (attrs : Attributes) : attrs.outside keys =
      (attrs.others key).filter fun entry => entry.1 ∉ keys := by
    rw [others, Entries.others, List.filter_filter]
    apply List.filter_congr
    intro entry _
    have hne : entry.1 ∉ keys → entry.1 ≠ key := by
      rintro hout rfl
      exact hout h
    simpa using hne
  rw [hothers, hothers, others_insert]

/-- Entries under keys that are not bound stay as they are, in their order. -/
theorem outside_insertAll (attrs : Attributes) {entries : Entries} {keys : List String}
    (h : ∀ entry ∈ entries, entry.1 ∈ keys) :
    (attrs.insertAll entries).outside keys = attrs.outside keys := by
  induction entries generalizing attrs with
  | nil => rfl
  | cons entry entries ih =>
    obtain ⟨hfirst, hrest⟩ := List.forall_mem_cons.mp h
    rw [insertAll_cons, ih _ hrest, outside_insert attrs hfirst]

theorem entries_insertAll (attrs : Attributes) {entries : Entries}
    (h : (attrs.keys ++ Entries.keys entries).Nodup) :
    (attrs.insertAll entries).entries = attrs.entries ++ entries := by
  induction entries generalizing attrs with
  | nil => exact (List.append_nil _).symm
  | cons entry entries ih =>
    have hnew : entry.1 ∉ attrs.keys := by
      intro hmem
      exact (List.nodup_append.mp h).2.2 _ hmem _ List.mem_cons_self rfl
    have hkeys : (attrs.insert entry.1 entry.2).2.keys = attrs.keys ++ [entry.1] := by
      rw [keys_insert, if_neg hnew]
    have hentries : (attrs.insert entry.1 entry.2).2.entries = attrs.entries ++ [entry] :=
      Entries.insert_of_not_mem hnew entry.2
    rw [insertAll_cons, ih, hentries, List.append_assoc, List.singleton_append]
    rw [hkeys, List.append_assoc]
    exact h

/-- Attributes are collected from their own entries. -/
theorem ofList_entries (attrs : Attributes) : ofList attrs.entries = attrs := by
  have hentries : (ofList attrs.entries).entries = attrs.entries :=
    empty.entries_insertAll attrs.nodup
  cases hlist : ofList attrs.entries with
  | mk entries nodup =>
    rw [hlist] at hentries
    cases hentries
    rfl

end Attributes

end HtmlDoc
