import HtmlDoc.Proofs.Name.Accessor

/-!
How the recognisers of names are nested: what can be called as a tag can be written as the name of
an element, and the name of an element can still be written in lower case.
-/

namespace HtmlDoc.Name

theorem isLower_of_isDigit {c : Char} (h : c.isDigit = true) : c.isLower = false := by
  have hletter := isAccessorLetter_of_isDigit c h
  rw [Bool.eq_false_iff]
  intro hlower
  simp [isAccessorLetter, Char.isAlpha, hlower] at hletter

theorem isTagName_iff (name : String) :
    isTagName name = true ↔ ∃ (letters : List Char) (digit : Option Char),
      name.toList = letters ++ digit.toList ∧ letters ≠ [] ∧ (∀ c ∈ letters, c.isLower = true) ∧
        ∀ d ∈ digit, d.isDigit = true :=
  isLettersThenDigit_iff (fun _ => isLower_of_isDigit) name.toList

theorem isSegments_of_isAlphanum {cs : List Char} (h : ∀ c ∈ cs, c.isAlphanum = true) :
    isSegments true cs = true := by
  induction cs with
  | nil => rfl
  | cons c cs ih =>
    obtain ⟨hc, hcs⟩ := List.forall_mem_cons.mp h
    have hhyphen : c ≠ '-' := by
      rintro rfl
      exact absurd hc (by decide)
    rw [isSegments, if_neg hhyphen, hc, ih hcs]
    rfl

theorem isElementName_of_isTagName {name : String} (h : isTagName name = true) :
    isElementName name = true := by
  obtain ⟨letters, digit, htext, hne, hletters, hdigit⟩ := (isTagName_iff name).mp h
  obtain ⟨first, rest, rfl⟩ := List.exists_cons_of_ne_nil hne
  obtain ⟨hfirst, hrest⟩ := List.forall_mem_cons.mp hletters
  have htail : ∀ c ∈ rest ++ digit.toList, c.isAlphanum = true := by
    intro c hc
    rw [List.mem_append, Option.mem_toList] at hc
    obtain hc | hc := hc
    · simp [Char.isAlphanum, Char.isAlpha, hrest c hc]
    · simp [Char.isAlphanum, hdigit c hc]
  rw [isElementName, htext, List.cons_append, isElementChars, isSegments_of_isAlphanum htail]
  simp [Char.isAlpha, hfirst]

theorem isLower_lowerChar {c : Char} (h : c.isAlpha = true) : (lowerChar c).isLower = true := by
  have hletter : isAccessorLetter c = true := by simp [isAccessorLetter, h]
  refine (lowerChar_of_isAccessorLetter hletter).resolve_right ?_
  rintro rfl
  exact absurd h (by decide)

theorem isAlphanum_lowerChar {c : Char} (h : c.isAlphanum = true) :
    (lowerChar c).isAlphanum = true := by
  rw [Char.isAlphanum, Bool.or_eq_true] at h
  obtain hletter | hdigit := h
  · simp [Char.isAlphanum, Char.isAlpha, isLower_lowerChar hletter]
  · rw [lowerChar_of_isDigit hdigit]
    simp [Char.isAlphanum, hdigit]

theorem isSegments_map_lowerChar {started : Bool} {cs : List Char}
    (h : isSegments started cs = true) : isSegments started (cs.map lowerChar) = true := by
  induction cs generalizing started with
  | nil => exact h
  | cons c cs ih =>
    rw [isSegments] at h
    rw [List.map_cons, isSegments]
    split at h
    · rename_i hhyphen
      have hsame : lowerChar c = '-' := by
        rw [hhyphen]
        decide
      rw [Bool.and_eq_true] at h
      rw [if_pos hsame, h.1, ih h.2]
      rfl
    · rw [Bool.and_eq_true] at h
      have hpart := isAlphanum_lowerChar h.1
      -- A letter or a digit does not become a hyphen.
      have hhyphen : lowerChar c ≠ '-' := by
        intro hsame
        rw [hsame] at hpart
        exact absurd hpart (by decide)
      rw [if_neg hhyphen, hpart, ih h.2]
      rfl

theorem isElementName_lower {name : String} (h : isElementName name = true) :
    isElementName (lower name) = true := by
  rw [isElementName] at h
  rw [isElementName, lower, String.toList_ofList]
  cases hname : name.toList with
  | nil =>
    rw [hname] at h
    exact absurd h (by decide)
  | cons first rest =>
    rw [hname, isElementChars, Bool.and_eq_true] at h
    rw [List.map_cons, isElementChars, isSegments_map_lowerChar h.2]
    simp [Char.isAlpha, isLower_lowerChar h.1]

end HtmlDoc.Name
