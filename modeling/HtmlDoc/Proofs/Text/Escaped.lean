import HtmlDoc.Fragment
import HtmlDoc.Proofs.Text.Decoding
import HtmlDoc.Proofs.Text.Quiet

/-!
Escaped text: the form that escaping gives to a text. Brackets and double quotes are gone, and every
ampersand that is left starts a complete reference. Main statement: the texts of this form are those
that escaping writes, and those that it does not change.
-/

namespace HtmlDoc

namespace Text

/-- The form of escaped text. What follows on an ampersand is the name of a reference and its
semicolon. -/
structure IsEscaped (cs : List Char) : Prop where
  unmarked : ∀ c ∈ cs, c ≠ '<' ∧ c ≠ '>' ∧ c ≠ '"'
  complete : ∀ before after, cs = before ++ '&' :: after →
    ∃ name rest, after = name ++ ';' :: rest ∧ isReferenceName name = true

theorem isEscaped_nil : IsEscaped [] where
  unmarked := nofun
  complete := by
    intro before after hcut
    cases before <;> cases hcut

/-- Escaped text is a matter of each character and, at an ampersand, of what follows it. -/
theorem isEscaped_cons {c : Char} {cs : List Char} :
    IsEscaped (c :: cs) ↔
      ((c ≠ '<' ∧ c ≠ '>' ∧ c ≠ '"') ∧ (c = '&' → startsReference cs = true)) ∧ IsEscaped cs := by
  constructor
  · intro h
    obtain ⟨hc, hcs⟩ := List.forall_mem_cons.mp h.unmarked
    refine ⟨⟨hc, ?_⟩, hcs, ?_⟩
    · rintro rfl
      exact (startsReference_iff cs).mpr (h.complete [] cs rfl)
    · intro before after hcut
      exact h.complete (c :: before) after (by rw [hcut, List.cons_append])
  · rintro ⟨⟨hc, hamp⟩, hcs⟩
    refine ⟨List.forall_mem_cons.mpr ⟨hc, hcs.unmarked⟩, ?_⟩
    intro before after hcut
    -- The ampersand is the first character, or it is one of the rest.
    cases before with
    | nil =>
      obtain ⟨rfl, rfl⟩ := List.cons.inj hcut
      exact (startsReference_iff cs).mp (hamp rfl)
    | cons first before => exact hcs.complete before after (List.cons.inj hcut).2

theorem startsReference_append {cs : List Char} (h : startsReference cs = true)
    (behind : List Char) : startsReference (cs ++ behind) = true := by
  obtain ⟨name, rest, rfl, hname⟩ := (startsReference_iff cs).mp h
  rw [List.append_assoc, List.cons_append]
  exact (startsReference_iff _).mpr ⟨name, rest ++ behind, rfl, hname⟩

/-- The references of an escaped text are complete in it, so no more text behind it changes them. -/
theorem IsEscaped.append {left right : List Char} (hl : IsEscaped left) (hr : IsEscaped right) :
    IsEscaped (left ++ right) := by
  induction left with
  | nil => exact hr
  | cons c left ih =>
    obtain ⟨⟨hc, hamp⟩, hleft⟩ := isEscaped_cons.mp hl
    rw [List.cons_append, isEscaped_cons]
    exact ⟨⟨hc, fun h => startsReference_append (hamp h) right⟩, ih hleft⟩

theorem IsEscaped.of_append_right {left right : List Char} (h : IsEscaped (left ++ right)) :
    IsEscaped right where
  unmarked := fun c hc => h.unmarked c (List.mem_append_right left hc)
  complete := by
    intro before after hcut
    exact h.complete (left ++ before) after (by rw [hcut, List.append_assoc])

theorem isEscaped_join {texts : List String} (h : ∀ text ∈ texts, IsEscaped text.toList) :
    IsEscaped (String.join texts).toList := by
  induction texts with
  | nil => exact isEscaped_nil
  | cons text texts ih =>
    obtain ⟨htext, htexts⟩ := List.forall_mem_cons.mp h
    rw [String.join_cons, String.toList_append]
    exact htext.append (ih htexts)

/-- Where a reference starts in a text, one starts in the escaped text: its name and its semicolon
are written as they stand. -/
theorem startsReference_escapeChars {cs : List Char} (h : startsReference cs = true) :
    startsReference (escapeChars cs) = true := by
  obtain ⟨name, rest, rfl, hname⟩ := (startsReference_iff cs).mp h
  rw [escapeChars_reference hname]
  exact (startsReference_iff _).mpr ⟨name, escapeChars rest, rfl, hname⟩

/-- A complete reference, with nothing around it. -/
theorem isEscaped_reference (name : List Char) (h : isReferenceName name = true) :
    IsEscaped ('&' :: (name ++ [';'])) := by
  have hname : IsEscaped (name ++ [';']) := by
    have hend : IsEscaped [';'] :=
      isEscaped_cons.mpr ⟨⟨by decide, fun h => absurd h (by decide)⟩, isEscaped_nil⟩
    refine IsEscaped.append ?_ hend
    -- Nothing of the name means anything in markup.
    have hne {d : Char} (hd : (d.isAlphanum || d == '#') = false) : ∀ c ∈ name, c ≠ d :=
      ne_of_isReferenceName h hd
    refine ⟨fun c hc => ⟨hne (by decide) c hc, hne (by decide) c hc, hne (by decide) c hc⟩, ?_⟩
    rintro before after rfl
    exact absurd rfl (hne (by decide) '&' (by simp))
  exact isEscaped_cons.mpr
    ⟨⟨by decide, fun _ => (startsReference_iff _).mpr ⟨name, [], rfl, h⟩⟩, hname⟩

/-- What is written for a character that starts no reference is the character itself, or else a
complete reference. -/
theorem isEscaped_escapeChar {c : Char} {cs : List Char}
    (hc : c = '&' → startsReference cs = false) : IsEscaped (escapeChar c cs) := by
  unfold escapeChar
  split
  · rename_i hamp
    rw [hc hamp]
    exact isEscaped_reference ['a', 'm', 'p'] rfl
  rename_i hamp
  split
  · exact isEscaped_reference ['l', 't'] rfl
  rename_i hlt
  split
  · exact isEscaped_reference ['g', 't'] rfl
  rename_i hgt
  split
  · exact isEscaped_reference ['q', 'u', 'o', 't'] rfl
  rename_i hquot
  exact isEscaped_cons.mpr ⟨⟨⟨hlt, hgt, hquot⟩, fun h => absurd h hamp⟩, isEscaped_nil⟩

/-- The ampersand of a reference stays. -/
theorem escapeChar_of_startsReference {cs : List Char} (h : startsReference cs = true) :
    escapeChar '&' cs = ['&'] := by
  unfold escapeChar
  rw [if_pos rfl, if_pos h]

/-- Whatever the text, what escaping writes has the form of escaped text. -/
theorem isEscaped_escapeChars (cs : List Char) : IsEscaped (escapeChars cs) := by
  induction cs with
  | nil => exact isEscaped_nil
  | cons c cs ih =>
    rw [escapeChars]
    by_cases href : c = '&' ∧ startsReference cs = true
    · -- What stands behind the ampersand is a reference after escaping too.
      obtain ⟨rfl, href⟩ := href
      rw [escapeChar_of_startsReference href, List.singleton_append, isEscaped_cons]
      exact ⟨⟨by decide, fun _ => startsReference_escapeChars href⟩, ih⟩
    · have hc : c = '&' → startsReference cs = false := by
        intro hamp
        rw [Bool.eq_false_iff]
        exact fun hstarts => href ⟨hamp, hstarts⟩
      exact (isEscaped_escapeChar hc).append ih

/-- Text of this form is not changed. -/
theorem escapeChars_of_isEscaped {cs : List Char} (h : IsEscaped cs) : escapeChars cs = cs := by
  induction cs with
  | nil => rfl
  | cons c cs ih =>
    obtain ⟨⟨⟨hlt, hgt, hquot⟩, hamp⟩, hcs⟩ := isEscaped_cons.mp h
    have hkeep : escapeChar c cs = [c] := by
      by_cases hc : c = '&'
      · rw [hc, escapeChar_of_startsReference (hamp hc)]
      · exact escapeChar_of_plain ⟨hc, hlt, hgt, hquot⟩ cs
    rw [escapeChars, hkeep, ih hcs, List.singleton_append]

theorem isEscaped_escapeOnce (text : String) : IsEscaped (escapeOnce text).toList := by
  rw [escapeOnce, String.toList_ofList]
  exact isEscaped_escapeChars text.toList

theorem escapeOnce_of_isEscaped {text : String} (h : IsEscaped text.toList) :
    escapeOnce text = text := by
  rw [escapeOnce, escapeChars_of_isEscaped h, String.ofList_toList]

end Text

/-- The plain text of a fragment, escaped. -/
def Fragment.escapeAgain (value : Fragment) : Fragment := (Fragment.plain value.text).escapeOnce

namespace Text

/-- Escaping leaves a text as it is exactly if the text has the form of escaped text, and what it
writes are exactly the texts of that form. So the plain text of what has been escaped can be escaped
again any number of times, and stays as it is. -/
theorem escapeOnce_eq_self_iff (text : String) :
    (escapeOnce text = text ↔ IsEscaped text.toList) ∧
    ((∃ original, escapeOnce original = text) ↔ IsEscaped text.toList) ∧
    ∀ times : Nat, Fragment.escapeAgain^[times] (Fragment.plain text).escapeOnce =
      (Fragment.plain text).escapeOnce := by
  refine ⟨?fixed, ?outputs, ?again⟩
  case fixed =>
    constructor
    · intro h
      rw [← h]
      exact isEscaped_escapeOnce text
    · exact escapeOnce_of_isEscaped
  case outputs =>
    constructor
    · rintro ⟨original, rfl⟩
      exact isEscaped_escapeOnce original
    · exact fun h => ⟨text, escapeOnce_of_isEscaped h⟩
  case again =>
    intro times
    have honce : (Fragment.plain text).escapeOnce.escapeAgain = (Fragment.plain text).escapeOnce :=
      congrArg Fragment.markup (escapeOnce_of_isEscaped (isEscaped_escapeOnce text))
    exact Function.iterate_fixed honce times

end Text

end HtmlDoc
