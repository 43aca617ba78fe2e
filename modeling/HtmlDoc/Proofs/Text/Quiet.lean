import HtmlDoc.Proofs.Name.Accessor
import HtmlDoc.Text.Entity

/-!
Quiet texts: those without angle brackets, which can stand anywhere in markup without opening or
closing a tag. Escaped texts are quiet, whatever they were before, and so are all names.
-/

namespace HtmlDoc

namespace Text

/-- No angle bracket is in the text. -/
def Quiet (text : String) : Prop := ∀ c ∈ text.toList, c ≠ '<' ∧ c ≠ '>'

instance (text : String) : Decidable (Quiet text) :=
  decidable_of_iff (text.toList.all (fun c => c != '<' && c != '>') = true) (by simp [Quiet])

theorem quiet_append {left right : String} :
    Quiet (left ++ right) ↔ Quiet left ∧ Quiet right := by
  simp only [Quiet, String.toList_append, List.forall_mem_append]

theorem quiet_join {texts : List String} (h : ∀ text ∈ texts, Quiet text) :
    Quiet (String.join texts) := by
  intro c hc
  rw [String.toList_join, List.mem_flatMap] at hc
  obtain ⟨text, ht, hc⟩ := hc
  exact h text ht c hc

/-- A text is quiet if its characters are of a class without angle brackets. -/
theorem quiet_of_all {p : Char → Bool} (hl : p '<' = false) (hg : p '>' = false) {text : String}
    (h : ∀ c ∈ text.toList, p c = true) : Quiet text := by
  intro c hc
  have hp := h c hc
  constructor
  · rintro rfl
    rw [hl] at hp
    cases hp
  · rintro rfl
    rw [hg] at hp
    cases hp

/-- Of the characters that mean something in markup, escaping writes the ampersand only. -/
theorem ne_of_mem_escapeChars {c : Char} {cs : List Char} (h : c ∈ escapeChars cs) :
    c ≠ '<' ∧ c ≠ '>' ∧ c ≠ '"' := by
  induction cs with
  | nil => exact absurd h List.not_mem_nil
  | cons first rest ih =>
    rw [escapeChars, List.mem_append] at h
    obtain h | h := h
    · -- The references are closed lists; a character written as it stands is none of the three.
      have hclosed {word : List Char}
          (hw : word.all (fun c => c != '<' && c != '>' && c != '"') = true) (hc : c ∈ word) :
          c ≠ '<' ∧ c ≠ '>' ∧ c ≠ '"' := by
        simpa [and_assoc] using List.all_eq_true.mp hw c hc
      rw [escapeChar] at h
      split_ifs at h with hamp href hlt hgt hquot
      · exact hclosed (by decide) h
      · exact hclosed (by decide) h
      · exact hclosed (by decide) h
      · exact hclosed (by decide) h
      · exact hclosed (by decide) h
      · rw [List.mem_singleton] at h
        rw [h]
        exact ⟨hlt, hgt, hquot⟩
    · exact ih h

theorem quiet_escapeOnce (text : String) : Quiet (escapeOnce text) := by
  intro c hc
  rw [escapeOnce, String.toList_ofList] at hc
  have hne := ne_of_mem_escapeChars hc
  exact ⟨hne.1, hne.2.1⟩

end Text

namespace Name

open Text (Quiet quiet_of_all)

/-- Lowercasing makes no character that is not itself a letter in lower case. -/
theorem lowerChar_ne {c d : Char} (hd : d.isLower = false) (h : c ≠ d) : lowerChar c ≠ d := by
  rw [lowerChar]
  split
  · rintro rfl
    exact absurd hd (by decide)
  · -- A letter in upper case becomes one in lower case, and anything else stays.
    by_cases hu : c.isUpper = true
    · rintro rfl
      rw [Char.isLower_toLower_eq_isAlpha, Char.isAlpha, hu] at hd
      cases hd
    · rw [Char.toLower_eq_of_not_isUpper hu]
      exact h

theorem quiet_lower {name : String} (h : Quiet name) : Quiet (lower name) := by
  intro c hc
  rw [lower, String.toList_ofList, List.mem_map] at hc
  obtain ⟨original, hin, rfl⟩ := hc
  have hq := h original hin
  exact ⟨lowerChar_ne (by decide) hq.1, lowerChar_ne (by decide) hq.2⟩

theorem isSegments_mem {started : Bool} {cs : List Char} (h : isSegments started cs = true) :
    ∀ c ∈ cs, (c.isAlphanum || c == '-') = true := by
  induction cs generalizing started with
  | nil => exact fun _ hc => absurd hc List.not_mem_nil
  | cons first rest ih =>
    rw [isSegments] at h
    rw [List.forall_mem_cons]
    split at h
    · rename_i hdash
      rw [Bool.and_eq_true] at h
      exact ⟨by simp [hdash], ih h.2⟩
    · rw [Bool.and_eq_true] at h
      exact ⟨by simp [h.1], ih h.2⟩

theorem isElementName_mem {tag : String} (h : isElementName tag = true) :
    ∀ c ∈ tag.toList, (c.isAlphanum || c == '-') = true := by
  rw [isElementName] at h
  cases htag : tag.toList with
  | nil => exact fun _ hc => absurd hc List.not_mem_nil
  | cons first rest =>
    rw [htag, isElementChars, Bool.and_eq_true] at h
    rw [List.forall_mem_cons]
    exact ⟨by simp [Char.isAlphanum, h.1], isSegments_mem h.2⟩

theorem quiet_of_isElementName {tag : String} (h : isElementName tag = true) : Quiet tag :=
  quiet_of_all (p := fun c => c.isAlphanum || c == '-') (by decide) (by decide) (isElementName_mem h)

theorem quiet_of_isKey {key : String} (h : isKey key = true) : Quiet key :=
  quiet_of_all (by decide) (by decide) (isKeyPart_of_isKey h)

theorem quiet_of_isAccessorName {name : String} (h : isAccessorName name = true) : Quiet name := by
  refine quiet_of_all (p := fun c => isAccessorLetter c || c.isDigit) (by decide) (by decide) ?_
  obtain ⟨letters, digit, htext, -, hletters, hdigit⟩ := (isAccessorName_iff name).mp h
  intro c hc
  rw [htext, List.mem_append, Option.mem_toList] at hc
  obtain hc | hc := hc
  · simp [hletters c hc]
  · simp [hdigit c hc]

end Name

end HtmlDoc
