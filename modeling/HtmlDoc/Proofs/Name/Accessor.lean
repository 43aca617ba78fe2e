import Mathlib
import HtmlDoc.Name

/-!
Accessor names under lowercasing. An accessor name is letters and perhaps a digit, and so is its
lowercase form; what is left in it that no attribute key may hold is the long s and nothing else.
-/

namespace HtmlDoc.Name

/-- Letters and then at most one digit, as a way to cut the text. -/
theorem isLettersThenDigit_iff {letter : Char → Bool}
    (hd : ∀ c : Char, c.isDigit = true → letter c = false) (cs : List Char) :
    isLettersThenDigit letter cs = true ↔ ∃ (letters : List Char) (digit : Option Char),
      cs = letters ++ digit.toList ∧ letters ≠ [] ∧ (∀ c ∈ letters, letter c = true) ∧
        ∀ d ∈ digit, d.isDigit = true := by
  simp only [isLettersThenDigit, Bool.and_eq_true, Bool.not_eq_true', List.isEmpty_eq_false_iff]
  constructor
  · -- The letters are what `takeWhile` takes, and the digit is all that may be left.
    rintro ⟨hne, hrest⟩
    have hcut := List.takeWhile_append_dropWhile (p := letter) (l := cs)
    have hall : ∀ c ∈ cs.takeWhile letter, letter c = true := fun c hc => List.mem_takeWhile_imp hc
    split at hrest
    · rename_i hnil
      refine ⟨cs.takeWhile letter, none, ?_, hne, hall, by simp⟩
      rw [hnil] at hcut
      exact hcut.symm
    · rename_i d hone
      refine ⟨cs.takeWhile letter, some d, ?_, hne, hall, by simpa using hrest⟩
      rw [hone] at hcut
      exact hcut.symm
    · cases hrest
  · -- A digit is no letter, so both functions stop where the letters end.
    rintro ⟨letters, digit, rfl, hne, hall, hdigit⟩
    have hstop : digit.toList.takeWhile letter = [] := by
      cases digit with
      | none => rfl
      | some d => simp [hd d (hdigit d rfl)]
    have hkeep : digit.toList.dropWhile letter = digit.toList := by
      cases digit with
      | none => rfl
      | some d => simp [hd d (hdigit d rfl)]
    rw [List.takeWhile_append_of_pos hall, List.dropWhile_append_of_pos hall, hstop, hkeep,
      List.append_nil]
    refine ⟨hne, ?_⟩
    cases digit with
    | none => rfl
    | some d => exact hdigit d rfl

theorem isAccessorLetter_of_isDigit (c : Char) (h : c.isDigit = true) :
    isAccessorLetter c = false := by
  have hr := Char.isDigit_iff_toNat.mp h
  have ha : c.isAlpha = false := by
    simp [Char.isAlpha, Char.isUpper, Char.isLower, UInt32.le_iff_toNat_le] at hr ⊢
    omega
  have hs : c ≠ '\u017F' := by
    rintro rfl
    exact absurd h (by decide)
  have hk : c ≠ '\u212A' := by
    rintro rfl
    exact absurd h (by decide)
  simp [isAccessorLetter, ha, hs, hk]

theorem isAccessorName_iff (name : String) :
    isAccessorName name = true ↔ ∃ (letters : List Char) (digit : Option Char),
      name.toList = letters ++ digit.toList ∧ letters ≠ [] ∧
        (∀ c ∈ letters, isAccessorLetter c = true) ∧ ∀ d ∈ digit, d.isDigit = true :=
  isLettersThenDigit_iff isAccessorLetter_of_isDigit name.toList

/-- A character that is neither a letter nor a digit is in no accessor name. -/
theorem not_mem_of_isAccessorName {name : String} (h : isAccessorName name = true) (c : Char)
    (hletter : isAccessorLetter c = false) (hdigit : c.isDigit = false) : c ∉ name.toList := by
  obtain ⟨letters, digit, htext, -, hletters, hdigits⟩ := (isAccessorName_iff name).mp h
  rw [htext, List.mem_append, Option.mem_toList]
  rintro (hin | hin)
  · exact Bool.false_ne_true (hletter.symm.trans (hletters c hin))
  · exact Bool.false_ne_true (hdigit.symm.trans (hdigits c hin))

theorem lowerChar_of_isDigit {c : Char} (h : c.isDigit = true) : lowerChar c = c := by
  have hl := isAccessorLetter_of_isDigit c h
  have hu : ¬ c.isUpper = true := by
    intro hu
    simp [isAccessorLetter, Char.isAlpha, hu] at hl
  have hk : c ≠ '\u212A' := by
    rintro rfl
    exact absurd h (by decide)
  rw [lowerChar, if_neg hk, Char.toLower_eq_of_not_isUpper hu]

theorem not_isUpper_of_isLower {c : Char} (h : c.isLower = true) : ¬ c.isUpper = true := by
  intro hu
  simp [Char.isUpper, Char.isLower, UInt32.le_iff_toNat_le] at h hu
  omega

/-- Lowercasing changes the capital letters and the kelvin sign. -/
theorem lowerChar_eq_self_iff {c : Char} :
    lowerChar c = c ↔ c.isUpper = false ∧ c ≠ '\u212A' := by
  by_cases hk : c = '\u212A'
  · subst hk
    decide
  rw [lowerChar, if_neg hk, ← Bool.not_eq_true]
  constructor
  · intro hsame
    refine ⟨fun hu => ?_, hk⟩
    have hlower : c.toLower.isLower = true := by
      rw [Char.isLower_toLower_eq_isAlpha]
      simp [Char.isAlpha, hu]
    rw [hsame] at hlower
    exact not_isUpper_of_isLower hlower hu
  · rintro ⟨hu, -⟩
    exact Char.toLower_eq_of_not_isUpper hu

theorem lower_eq_self_iff {name : String} :
    lower name = name ↔ ∀ c ∈ name.toList, c.isUpper = false ∧ c ≠ '\u212A' := by
  rw [← String.toList_inj, lower, String.toList_ofList]
  simp only [← lowerChar_eq_self_iff]
  constructor
  · intro h c hc
    have hmap : name.toList.map lowerChar = name.toList.map id := by
      rw [h, List.map_id]
    exact List.map_inj_left.mp hmap c hc
  · intro h
    rw [List.map_congr_left h, List.map_id']

theorem lowerChar_toLower (c : Char) : lowerChar c.toLower = lowerChar c := by
  by_cases hu : c.isUpper = true
  · -- A capital letter is no kelvin sign, and in lower case it is none either.
    have hk : c ≠ '\u212A' := by
      rintro rfl
      exact absurd hu (by decide)
    have hkl : c.toLower ≠ '\u212A' := by
      intro h
      have hlower : c.toLower.isLower = true := by
        simp [Char.isLower_toLower_eq_isAlpha, Char.isAlpha, hu]
      rw [h] at hlower
      exact absurd hlower (by decide)
    rw [lowerChar, if_neg hkl, lowerChar, if_neg hk, Char.toLower_toLower_eq_toLower]
  · rw [Char.toLower_eq_of_not_isUpper hu]

theorem lowerChar_lowerChar (c : Char) : lowerChar (lowerChar c) = lowerChar c := by
  by_cases hk : c = '\u212A'
  · subst hk
    decide
  · have hlower : lowerChar c = c.toLower := if_neg hk
    rw [hlower, lowerChar_toLower, hlower]

theorem lower_lower (name : String) : lower (lower name) = lower name := by
  rw [lower, lower, String.toList_ofList, List.map_map]
  congr 1
  exact List.map_congr_left fun c _ => lowerChar_lowerChar c

/-- Names that differ in the case of ASCII letters only have one lowercase form. -/
theorem lower_eq_of_toLower_eq {name spelling : String} (h : name.toLower = spelling.toLower) :
    lower name = lower spelling := by
  have hlower (text : String) : lower text.toLower = lower text := by
    rw [lower, lower, String.toLower, String.toList_map, List.map_map]
    congr 1
    exact List.map_congr_left fun c _ => lowerChar_toLower c
  rw [← hlower name, h, hlower]

/-- A letter of an accessor name is the long s, or it is an ASCII letter once in lower case. -/
theorem lowerChar_of_isAccessorLetter {c : Char} (h : isAccessorLetter c = true) :
    (lowerChar c).isLower = true ∨ c = '\u017F' := by
  simp only [isAccessorLetter, Bool.or_eq_true, beq_iff_eq] at h
  -- ASCII letters, then the long s, then the kelvin sign.
  obtain (h | rfl) | rfl := h
  · have hk : c ≠ '\u212A' := by
      rintro rfl
      revert h
      decide
    left
    rw [lowerChar, if_neg hk, Char.isLower_toLower_eq_isAlpha]
    exact h
  · exact Or.inr rfl
  · left
    decide

/-- What lowercasing leaves of an accessor name: letters that are ASCII in lower case or the long s,
and the digit as it was. -/
theorem lower_of_isAccessorName {name : String} (h : isAccessorName name = true) :
    ∃ (letters : List Char) (digit : Option Char), (lower name).toList = letters ++ digit.toList ∧
      letters ≠ [] ∧ (∀ c ∈ letters, c.isLower = true ∨ c = '\u017F') ∧
        ∀ d ∈ digit, d.isDigit = true := by
  obtain ⟨letters, digit, htext, hne, hletters, hdigit⟩ := (isAccessorName_iff name).mp h
  have hkept : digit.toList.map lowerChar = digit.toList := by
    cases digit with
    | none => rfl
    | some d => simp [lowerChar_of_isDigit (hdigit d rfl)]
  refine ⟨letters.map lowerChar, digit, ?_, by simpa using hne, ?_, hdigit⟩
  · simp [lower, htext, hkept]
  · intro c hc
    obtain ⟨original, hin, rfl⟩ := List.mem_map.mp hc
    obtain hlower | rfl := lowerChar_of_isAccessorLetter (hletters original hin)
    · exact Or.inl hlower
    · exact Or.inr (by decide)

theorem isAccessorLetter_of_isLower {c : Char} (h : c.isLower = true ∨ c = '\u017F') :
    isAccessorLetter c = true := by
  obtain h | rfl := h
  · simp [isAccessorLetter, Char.isAlpha, h]
  · decide

/-- Lowercasing an accessor name gives an accessor name, which lowercasing leaves as it is. -/
theorem lower_isAccessorName {name : String} (h : isAccessorName name = true) :
    isAccessorName (lower name) = true ∧ lower (lower name) = lower name := by
  obtain ⟨letters, digit, htext, hne, hletters, hdigit⟩ := lower_of_isAccessorName h
  refine ⟨?_, lower_lower name⟩
  refine (isAccessorName_iff _).mpr ⟨letters, digit, htext, hne, ?_, hdigit⟩
  intro c hc
  exact isAccessorLetter_of_isLower (hletters c hc)

theorem isKeyPart_of_isKey {key : String} (h : isKey key = true) :
    ∀ c ∈ key.toList, isKeyPart c = true := by
  rw [isKey] at h
  cases hkey : key.toList with
  | nil => simp
  | cons first rest =>
    rw [hkey, isKeyChars, Bool.and_eq_true, List.all_eq_true] at h
    intro c hc
    rw [List.mem_cons] at hc
    obtain rfl | hc := hc
    · have hs := h.1
      simp only [isKeyStart, isKeyPart, Char.isAlphanum, Bool.or_eq_true] at hs ⊢
      tauto
    · exact h.2 c hc

/-- Lowercasing takes no long s away from an accessor name, and adds none. -/
theorem longS_mem_lower_iff {name : String} (h : isAccessorName name = true) :
    '\u017F' ∈ (lower name).toList ↔ '\u017F' ∈ name.toList := by
  obtain ⟨letters, digit, htext, -, hletters, hdigit⟩ := (isAccessorName_iff name).mp h
  simp only [lower, String.toList_ofList, List.mem_map]
  constructor
  · rintro ⟨c, hc, hs⟩
    have hin := hc
    rw [htext, List.mem_append, Option.mem_toList] at hin
    obtain hin | hin := hin
    · obtain hlower | rfl := lowerChar_of_isAccessorLetter (hletters c hin)
      · rw [hs] at hlower
        exact absurd hlower (by decide)
      · exact hc
    · rw [lowerChar_of_isDigit (hdigit c hin)] at hs
      exact hs ▸ hc
  · intro hs
    exact ⟨_, hs, by decide⟩

/-- Lowercased, an accessor name is a key unless it holds the long s. -/
theorem isKey_lower_iff {name : String} (h : isAccessorName name = true) :
    isKey (lower name) = true ↔ '\u017F' ∉ name.toList := by
  rw [← longS_mem_lower_iff h]
  constructor
  · intro hkey hin
    exact absurd (isKeyPart_of_isKey hkey _ hin) (by decide)
  · intro hfree
    obtain ⟨letters, digit, htext, hne, hletters, hdigit⟩ := lower_of_isAccessorName h
    rw [htext] at hfree
    have hlower : ∀ c ∈ letters, c.isLower = true := by
      intro c hc
      refine (hletters c hc).resolve_right ?_
      rintro rfl
      exact hfree (List.mem_append_left _ hc)
    obtain ⟨first, rest, rfl⟩ := List.exists_cons_of_ne_nil hne
    have hpart : ∀ c ∈ rest ++ digit.toList, isKeyPart c = true := by
      intro c hc
      rw [List.mem_append, Option.mem_toList] at hc
      obtain hc | hc := hc
      · simp [isKeyPart, Char.isAlphanum, Char.isAlpha, hlower c (List.mem_cons_of_mem _ hc)]
      · simp [isKeyPart, Char.isAlphanum, hdigit c hc]
    rw [isKey, htext, List.cons_append, isKeyChars, Bool.and_eq_true, List.all_eq_true]
    refine ⟨?_, hpart⟩
    simp [isKeyStart, Char.isAlpha, hlower first List.mem_cons_self]

end HtmlDoc.Name
