import HtmlDoc.Builder.TagCall
import HtmlDoc.Proofs.Name.Nesting

/-!
Grammars of names: what the recognisers of tags accept, said without them. The name of an element is
cut at its hyphens into segments, and a tag that can be called is letters and perhaps a digit. Main
statement: the recognisers accept exactly these texts, and a name that a builder lets through is not
turned down when the element is made.
-/

namespace HtmlDoc.Name

/-- What stands between two hyphens of the name of an element: ASCII letters and digits, at least
one. -/
def IsSegment (cs : List Char) : Prop := cs ≠ [] ∧ ∀ c ∈ cs, c.isAlphanum = true

/-- The scan of a name on the cut of its text at the hyphens. The first part goes on the segment
that is being read, so it may be empty if that one has a character already. -/
theorem isSegments_iff {started : Bool} {cs first : List Char} {others : List (List Char)}
    (hcut : cs.splitOn '-' = first :: others) :
    isSegments started cs = true ↔ (started = true ∨ first ≠ []) ∧
      (∀ c ∈ first, c.isAlphanum = true) ∧ ∀ segment ∈ others, IsSegment segment := by
  induction cs generalizing started first others with
  | nil =>
    rw [List.splitOn_nil, List.cons.injEq] at hcut
    obtain ⟨rfl, rfl⟩ := hcut
    simp [isSegments]
  | cons c cs ih =>
    obtain ⟨next, rest, hnext⟩ := List.exists_cons_of_ne_nil (List.splitOn_ne_nil '-' cs)
    rw [List.splitOn_cons_eq_if_modifyHead, hnext] at hcut
    rw [isSegments]
    by_cases hhyphen : c = '-'
    · -- The segment being read ends here, and the next one has no character yet.
      rw [if_pos (beq_iff_eq.mpr hhyphen), List.cons.injEq] at hcut
      obtain ⟨rfl, rfl⟩ := hcut
      rw [if_pos hhyphen, Bool.and_eq_true, ih hnext, List.forall_mem_cons, IsSegment]
      simp [and_assoc]
    · rw [if_neg fun h => hhyphen (beq_iff_eq.mp h), List.modifyHead_cons, List.cons.injEq] at hcut
      obtain ⟨rfl, rfl⟩ := hcut
      rw [if_neg hhyphen, Bool.and_eq_true, ih hnext, List.forall_mem_cons]
      simp [and_assoc]

theorem isElementName_iff (name : String) :
    isElementName name = true ↔ (∀ segment ∈ name.toList.splitOn '-', IsSegment segment) ∧
      ∃ first ∈ name.toList.head?, first.isAlpha = true := by
  rw [isElementName]
  cases name.toList with
  | nil => simp [isElementChars]
  | cons first rest =>
    obtain ⟨next, others, hcut⟩ := List.exists_cons_of_ne_nil (List.splitOn_ne_nil '-' rest)
    have hhead : (∃ c ∈ (first :: rest).head?, c.isAlpha = true) ↔ first.isAlpha = true := by
      simp
    rw [isElementChars, Bool.and_eq_true, hhead, isSegments_iff hcut, and_comm]
    refine and_congr_left fun hletter => ?_
    -- A letter is no hyphen, so it is the first character of the first segment.
    have hhyphen : ¬ (first == '-') = true := by
      intro h
      rw [beq_iff_eq.mp h] at hletter
      exact absurd hletter (by decide)
    have hpart : first.isAlphanum = true := by simp [Char.isAlphanum, hletter]
    rw [List.splitOn_cons_eq_if_modifyHead, if_neg hhyphen, hcut, List.modifyHead_cons,
      List.forall_mem_cons, IsSegment, List.forall_mem_cons]
    simp [hpart]

theorem isAccessorName_of_isTagName {name : String} (h : isTagName name = true) :
    isAccessorName name = true := by
  obtain ⟨letters, digit, htext, hne, hletters, hdigit⟩ := (isTagName_iff name).mp h
  refine (isAccessorName_iff name).mpr ⟨letters, digit, htext, hne, ?_, hdigit⟩
  intro c hc
  exact isAccessorLetter_of_isLower (Or.inl (hletters c hc))

theorem lower_of_isTagName {name : String} (h : isTagName name = true) : lower name = name := by
  obtain ⟨letters, digit, htext, -, hletters, hdigit⟩ := (isTagName_iff name).mp h
  rw [lower_eq_self_iff]
  intro c hc
  rw [htext, List.mem_append, Option.mem_toList] at hc
  obtain hc | hc := hc
  · have hlower := hletters c hc
    refine ⟨Bool.eq_false_iff.mpr (not_isUpper_of_isLower hlower), ?_⟩
    rintro rfl
    exact absurd hlower (by decide)
  · exact lowerChar_eq_self_iff.mp (lowerChar_of_isDigit (hdigit c hc))

/-- The recognisers of tags accept exactly their grammars. The name of an element starts with a
letter, and cut at every hyphen it gives segments only. A tag that can be called is lowercase
letters and at most one digit behind them; so it is the name of an element and an accessor name too,
and in lower case already. Lowercasing the name of an element keeps it one. Hence a name that a
builder has checked is never turned down when the element is made, and is its tag as it stands. -/
theorem tagGrammars_exact (name : String) :
    (isElementName name = true ↔ (∀ segment ∈ name.toList.splitOn '-', IsSegment segment) ∧
      ∃ first ∈ name.toList.head?, first.isAlpha = true) ∧
    (isTagName name = true ↔ ∃ (letters : List Char) (digit : Option Char),
      name.toList = letters ++ digit.toList ∧ letters ≠ [] ∧ (∀ c ∈ letters, c.isLower = true) ∧
        ∀ d ∈ digit, d.isDigit = true) ∧
    (isTagName name = true →
      isElementName name = true ∧ isAccessorName name = true ∧ lower name = name) ∧
    (isElementName name = true → isElementName (lower name) = true) ∧
    (TagCall.checkName name = .ok () →
      ∃ element, Element.ofTag name = .ok element ∧ element.tag = name) := by
  refine ⟨isElementName_iff name, isTagName_iff name, ?nested, isElementName_lower, ?made⟩
  case nested =>
    intro htag
    exact ⟨isElementName_of_isTagName htag, isAccessorName_of_isTagName htag,
      lower_of_isTagName htag⟩
  case made =>
    intro hcheck
    rw [TagCall.checkName] at hcheck
    split at hcheck
    · rename_i htag
      -- The tag is kept in lower case, which is how it came.
      exact ⟨_, Element.ofTag_eq_ok.mpr ⟨isElementName_of_isTagName htag, rfl⟩,
        lower_of_isTagName htag⟩
    · cases hcheck

/-- A name of two segments with capitals, and the tag of a heading. -/
theorem tagGrammars_exact_heading :
    (∀ segment ∈ "My-Widget2".toList.splitOn '-', IsSegment segment) ∧
      isElementName (lower "My-Widget2") = true ∧
      isAccessorName "h1" = true ∧ ∃ element, Element.ofTag "h1" = .ok element ∧
        element.tag = "h1" := by
  obtain ⟨hgrammar, -, -, hlower, -⟩ := tagGrammars_exact "My-Widget2"
  obtain ⟨-, -, hnested, -, hmade⟩ := tagGrammars_exact "h1"
  obtain ⟨-, haccessor, -⟩ := hnested (by decide)
  exact ⟨(hgrammar.mp (by decide)).1, hlower (by decide), haccessor, hmade (by decide)⟩

/-- Neither a letter outside of ASCII nor a line end behind the name is accepted, and two hyphens in
a row leave an empty segment. -/
example :
    isElementName "é" = false ∧ isElementName "p\n" = false ∧ isElementName "a--b" = false := by
  decide

end HtmlDoc.Name
