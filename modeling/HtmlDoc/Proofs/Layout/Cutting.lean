import HtmlDoc.Proofs.Layout.Composition
import HtmlDoc.Proofs.Text.Escaped

/-!
Texts cut in two. Whether an ampersand is escaped is decided by what follows on it, so escaping the
parts of a text can come to something else than escaping the whole, where a reference is cut. Main
statement: it never does exactly if the first part does not end within a reference, and then it
makes no difference to a document, at any place in it, whether the text is written whole or in
parts.
-/

namespace HtmlDoc

namespace Text

/-- Whether the name of a reference could start so: ASCII letters, or a number sign and ASCII
digits, with none of them there yet perhaps. -/
def isOpenName : List Char → Bool
  | '#' :: digits => digits.all Char.isDigit
  | letters => letters.all Char.isAlpha

/-- The text ends within what could be a reference: behind its last ampersand comes the start of a
name and nothing else. -/
def EndsOpen (cs : List Char) : Prop :=
  ∃ before name, cs = before ++ '&' :: name ∧ isOpenName name = true

/-- Behind an ampersand, the first text starts a reference only if the second text follows. -/
def Completes (left right : List Char) : Prop :=
  startsReference left = false ∧ startsReference (left ++ right) = true

/-- The second text completes a reference of an ampersand in the first. -/
def Spans (left right : List Char) : Prop :=
  ∃ before name, left = before ++ '&' :: name ∧ Completes name right

variable {c : Char} {left right name : List Char}

theorem endsOpen_cons :
    EndsOpen (c :: left) ↔ (c = '&' ∧ isOpenName left = true) ∨ EndsOpen left := by
  constructor
  · rintro ⟨before, name, hcut, hname⟩
    cases before with
    | nil =>
      obtain ⟨rfl, rfl⟩ := List.cons.inj hcut
      exact .inl ⟨rfl, hname⟩
    | cons first before => exact .inr ⟨before, name, (List.cons.inj hcut).2, hname⟩
  · rintro (⟨rfl, hname⟩ | ⟨before, name, rfl, hname⟩)
    · exact ⟨[], left, rfl, hname⟩
    · exact ⟨c :: before, name, rfl, hname⟩

theorem not_endsOpen_nil : ¬ EndsOpen [] := by
  rintro ⟨before, name, hcut, -⟩
  cases before <;> cases hcut

instance decidableEndsOpen : (cs : List Char) → Decidable (EndsOpen cs)
  | [] => isFalse not_endsOpen_nil
  | _ :: cs =>
    have := decidableEndsOpen cs
    decidable_of_iff _ endsOpen_cons.symm

theorem isOpenName_of_ne (h : ∀ digits, name ≠ '#' :: digits) :
    isOpenName name = name.all Char.isAlpha := by
  unfold isOpenName
  split
  · rename_i digits
    exact absurd rfl (h digits)
  · rfl

theorem isOpenName_of_append {more : List Char} (h : isReferenceName (name ++ more) = true) :
    isOpenName name = true := by
  match name with
  | [] => rfl
  | first :: rest =>
    by_cases hhash : first = '#'
    · subst hhash
      simp only [List.cons_append, isReferenceName, List.all_append, Bool.and_eq_true] at h
      exact h.2.1
    · have hletters (tail : List Char) : ∀ digits, first :: tail ≠ '#' :: digits :=
        fun _ heq => hhash (List.cons.inj heq).1
      rw [List.cons_append, isReferenceName_of_ne (hletters _), ← List.cons_append,
        List.all_append, Bool.and_eq_true, Bool.and_eq_true] at h
      rw [isOpenName_of_ne (hletters _)]
      exact h.2.1

/-- One character more makes the start of a name a name. -/
theorem exists_isReferenceName (h : isOpenName name = true) :
    ∃ c, isReferenceName (name ++ [c]) = true := by
  by_cases hhash : ∃ digits, name = '#' :: digits
  · obtain ⟨digits, rfl⟩ := hhash
    have hdigits : digits.all Char.isDigit = true := h
    exact ⟨'0', by simp [isReferenceName, hdigits]⟩
  · have hne : ∀ digits, name ≠ '#' :: digits := fun digits heq => hhash ⟨digits, heq⟩
    rw [isOpenName_of_ne hne] at h
    have hletter : ∀ digits, name ++ ['a'] ≠ '#' :: digits := by
      intro digits heq
      cases name with
      | nil => cases heq
      | cons first rest => exact hne rest (congrArg (· :: rest) (List.cons.inj heq).1)
    exact ⟨'a', by simp [isReferenceName_of_ne hletter, h]⟩

theorem spans_cons : Spans (c :: left) right ↔
    (c = '&' ∧ Completes left right) ∨ Spans left right := by
  constructor
  · rintro ⟨before, name, hcut, hcompletes⟩
    cases before with
    | nil =>
      obtain ⟨rfl, rfl⟩ := List.cons.inj hcut
      exact .inl ⟨rfl, hcompletes⟩
    | cons first before => exact .inr ⟨before, name, (List.cons.inj hcut).2, hcompletes⟩
  · rintro (⟨rfl, hcompletes⟩ | ⟨before, name, rfl, hcompletes⟩)
    · exact ⟨[], left, rfl, hcompletes⟩
    · exact ⟨c :: before, name, rfl, hcompletes⟩

/-- More text behind a character changes what is written for it only if it completes a reference. -/
theorem escapeChar_append (h : ¬ (c = '&' ∧ Completes left right)) :
    escapeChar c (left ++ right) = escapeChar c left := by
  by_cases hc : c = '&'
  · subst hc
    have hsame : startsReference (left ++ right) = startsReference left := by
      cases hleft : startsReference left with
      | true => exact startsReference_append hleft right
      | false => exact Bool.eq_false_iff.mpr fun hwhole => h ⟨rfl, hleft, hwhole⟩
    unfold escapeChar
    rw [hsame]
  · unfold escapeChar
    rw [if_neg hc, if_neg hc]

/-- The reference for a lone ampersand is longer than the ampersand of a reference. -/
theorem Completes.length_escapeChar_lt (h : Completes left right) :
    (escapeChar '&' (left ++ right)).length < (escapeChar '&' left).length := by
  obtain ⟨hopen, hwhole⟩ := h
  rw [escapeChar_of_startsReference hwhole, escapeChar, if_pos rfl, hopen]
  decide

theorem length_escapeChar_append_le (c : Char) (left right : List Char) :
    (escapeChar c (left ++ right)).length ≤ (escapeChar c left).length := by
  by_cases hspan : c = '&' ∧ Completes left right
  · obtain ⟨rfl, hcompletes⟩ := hspan
    exact Nat.le_of_lt hcompletes.length_escapeChar_lt
  · rw [escapeChar_append hspan]

/-- In parts a text is never escaped to less than as a whole. -/
theorem length_escapeChars_append_le (left right : List Char) :
    (escapeChars (left ++ right)).length ≤
      (escapeChars left).length + (escapeChars right).length := by
  induction left with
  | nil => exact Nat.le_add_left _ _
  | cons c left ih =>
    have hchar := length_escapeChar_append_le c left right
    simp only [List.cons_append, escapeChars, List.length_append]
    omega

theorem escapeChars_append_iff :
    escapeChars (left ++ right) = escapeChars left ++ escapeChars right ↔
      ¬ Spans left right := by
  induction left with
  | nil =>
    refine iff_of_true rfl ?_
    rintro ⟨before, name, hcut, -⟩
    cases before <;> cases hcut
  | cons c left ih =>
    rw [spans_cons, not_or, ← ih, List.cons_append, escapeChars, escapeChars]
    constructor
    · intro heq
      have hspan : ¬ (c = '&' ∧ Completes left right) := by
        -- What is more for the ampersand is made up for by nothing behind it.
        rintro ⟨rfl, hcompletes⟩
        have hlength := congrArg List.length heq
        have hchar := hcompletes.length_escapeChar_lt
        have hrest := length_escapeChars_append_le left right
        simp only [List.length_append] at hlength
        omega
      rw [escapeChar_append hspan, List.append_assoc] at heq
      exact ⟨hspan, List.append_cancel_left heq⟩
    · rintro ⟨hspan, heq⟩
      rw [escapeChar_append hspan, heq, List.append_assoc]

theorem Spans.endsOpen (h : Spans left right) : EndsOpen left := by
  obtain ⟨before, name, hleft, hopen, hwhole⟩ := h
  refine ⟨before, name, hleft, ?_⟩
  obtain ⟨reference, rest, hcut, hreference⟩ := (startsReference_iff _).mp hwhole
  -- The name does not hold the semicolon of the reference, so the reference goes beyond it.
  rcases List.append_eq_append_iff.mp hcut with ⟨more, rfl, -⟩ | ⟨more, hname, hmore⟩
  · exact isOpenName_of_append hreference
  · cases more with
    | nil =>
      have hall : isReferenceName (name ++ []) = true := by
        rwa [List.append_nil, hname, List.append_nil]
      exact isOpenName_of_append hall
    | cons first more =>
      obtain ⟨rfl, -⟩ := List.cons.inj hmore
      rw [(startsReference_iff name).mpr ⟨reference, more, hname, hreference⟩] at hopen
      cases hopen

theorem EndsOpen.exists_spans (h : EndsOpen left) : ∃ right, Spans left right := by
  obtain ⟨before, name, hleft, hname⟩ := h
  obtain ⟨c, hreference⟩ := exists_isReferenceName hname
  refine ⟨[c, ';'], before, name, hleft, ?_, ?_⟩
  · rw [Bool.eq_false_iff]
    intro hstarts
    obtain ⟨reference, rest, hcut, -⟩ := (startsReference_iff name).mp hstarts
    have hsemicolon : ';' ∈ name ++ [c] := by simp [hcut]
    exact ne_of_isReferenceName hreference (by decide) ';' hsemicolon rfl
  · exact (startsReference_iff _).mpr ⟨name ++ [c], [], by simp, hreference⟩

theorem escapeOnce_append_iff (left right : String) :
    escapeOnce (left ++ right) = escapeOnce left ++ escapeOnce right ↔
      ¬ Spans left.toList right.toList := by
  rw [← escapeChars_append_iff, escapeOnce, escapeOnce, escapeOnce, ← String.ofList_append,
    String.toList_append]
  exact String.ofList_inj

theorem forall_escapeOnce_append_iff (left : String) :
    (∀ right, escapeOnce (left ++ right) = escapeOnce left ++ escapeOnce right) ↔
      ¬ EndsOpen left.toList := by
  simp only [escapeOnce_append_iff]
  constructor
  · intro hnone hopen
    obtain ⟨right, hspans⟩ := hopen.exists_spans
    refine hnone (String.ofList right) ?_
    rwa [String.toList_ofList]
  · intro hclosed right hspans
    exact hclosed hspans.endsOpen

end Text

theorem Fragment.push_plain_plain {out : Fragment} (h : out.trusted = true) {left : String}
    (hclosed : ¬ Text.EndsOpen left.toList) (right : String) :
    (out.push (.plain left)).push (.plain right) = out.push (.plain (left ++ right)) := by
  have hmarkup (text : String) : (Fragment.plain text).asMarkup = Text.escapeOnce text := rfl
  rw [push_of_trusted h, push_of_trusted (trusted_append h _), push_of_trusted h, append_append,
    hmarkup, hmarkup, hmarkup, (Text.forall_escapeOnce_append_iff left).mpr hclosed right]

/-- The first tree is the second with plain texts in it cut in parts, at its top and inside its
elements. No part ends within a reference but for the last part of a text. -/
inductive Node.CutFrom : List Node → List Node → Prop
  | nil : CutFrom [] []
  | text {cut whole : List Node} (fragment : Fragment) :
    CutFrom cut whole → CutFrom (.text fragment :: cut) (.text fragment :: whole)
  | part {cut whole : List Node} {left : String} (right : String) :
    ¬ Text.EndsOpen left.toList → CutFrom cut (.text (.plain right) :: whole) →
    CutFrom (.text (.plain left) :: cut) (.text (.plain (left ++ right)) :: whole)
  | element {cut whole cutInside inside : List Node} (tag : String) (attrs : Attributes)
    (void inline closed : Bool) : CutFrom cutInside inside → CutFrom cut whole →
    CutFrom (.element ⟨tag, attrs, cutInside, void, inline, closed⟩ :: cut)
      (.element ⟨tag, attrs, inside, void, inline, closed⟩ :: whole)

namespace Node.CutFrom

variable {cut whole : List Node}

theorem isEmpty_eq (h : CutFrom cut whole) : cut.isEmpty = whole.isEmpty := by
  cases h <;> rfl

/-- Only the first part of a text can be indented, like the text itself. -/
theorem treeText_eq (h : CutFrom cut whole) (layout : Layout) (depth : Nat) (fresh : Bool) :
    layout.treeText depth fresh cut = layout.treeText depth fresh whole := by
  induction h generalizing depth fresh with
  | nil => rfl
  | text fragment _ ih => rw [Layout.treeText, Layout.treeText, ih]
  | @part _ _ left right hclosed _ ih =>
    have hwhole : (Fragment.plain (left ++ right)).asMarkup =
        (Fragment.plain left).asMarkup ++ (Fragment.plain right).asMarkup :=
      (Text.forall_escapeOnce_append_iff left).mpr hclosed right
    rw [Layout.treeText, Layout.treeText, ih, Layout.treeText, hwhole]
    simp only [Bool.false_eq_true, if_false, String.empty_append, String.append_assoc]
  | element tag attrs void inline closed hinside _ ihInside ih =>
    rw [Layout.treeText, Layout.treeText, ih]
    simp only [Layout.elementText, ihInside, hinside.isEmpty_eq]

end Node.CutFrom

namespace Layout

/-- Where a text can be cut. Whatever follows on its first part, escaping both parts comes to
escaping the whole, exactly if the first part does not end within a reference. At such a place the
text can be pushed to trusted text in parts, and the texts of a document can be cut wherever they
stand, any number of times: in both modes, at any depth and with any indent the document is rendered
as before. -/
theorem markup_cut :
    (∀ left : String,
      ((∀ right,
          Text.escapeOnce (left ++ right) = Text.escapeOnce left ++ Text.escapeOnce right) ↔
        ¬ Text.EndsOpen left.toList) ∧
      (¬ Text.EndsOpen left.toList → ∀ (right : String) (out : Fragment), out.trusted = true →
        (out.push (.plain left)).push (.plain right) = out.push (.plain (left ++ right)))) ∧
    ∀ cut whole : List Node, Node.CutFrom cut whole →
      ∀ (layout : Layout) (depth : Nat) (fresh : Bool),
        layout.treeMarkup cut depth fresh = layout.treeMarkup whole depth fresh := by
  refine ⟨fun left => ⟨Text.forall_escapeOnce_append_iff left, ?pushed⟩, ?rendered⟩
  case pushed =>
    intro hclosed right out htrusted
    exact Fragment.push_plain_plain htrusted hclosed right
  case rendered =>
    intro cut whole hcut layout depth fresh
    rw [treeMarkup_eq, treeMarkup_eq, hcut.treeText_eq layout depth fresh]

/-- The text of a paragraph, cut in three between a reference and a bare ampersand and behind the
ampersand's letter; then a text cut within a reference, which is escaped to something else. -/
theorem markup_cut_beside_reference :
    let paragraph (texts : List String) : Element :=
      ⟨"p", .empty, texts.map fun text => .text (.plain text), false, false, true⟩
    ¬ Text.EndsOpen "&lt;".toList ∧ ¬ Text.EndsOpen "&b ".toList ∧
    ((Fragment.markup "<b>").push (.plain "&lt;")).push (.plain "&b") = .markup "<b>&lt;&amp;b" ∧
    treeMarkup {} [.element (paragraph ["&lt;", "&b ", "c"])] 0 true =
      .markup "<p>\n  &lt;&amp;b c\n</p>\n" ∧
    Text.EndsOpen "&l".toList ∧
    ∃ right,
      Text.escapeOnce ("&l" ++ right) ≠ Text.escapeOnce "&l" ++ Text.escapeOnce right := by
  intro paragraph
  obtain ⟨htext, htree⟩ := markup_cut
  have hreference : ¬ Text.EndsOpen "&lt;".toList := by decide
  have hblank : ¬ Text.EndsOpen "&b ".toList := by decide
  have hopen : Text.EndsOpen "&l".toList := by decide
  have hcut : Node.CutFrom [.element (paragraph ["&lt;", "&b ", "c"])]
      [.element (paragraph ["&lt;" ++ ("&b " ++ "c")])] :=
    .element "p" .empty false false true
      (.part ("&b " ++ "c") hreference (.part "c" hblank (.text (.plain "c") .nil))) .nil
  refine ⟨hreference, hblank, ?pushed, ?rendered, hopen, ?within⟩
  case pushed => exact ((htext "&lt;").2 hreference "&b" (.markup "<b>") rfl).trans (by decide)
  case rendered => exact (htree _ _ hcut {} 0 true).trans (by decide +kernel)
  case within =>
    by_contra hnone
    push Not at hnone
    exact (htext "&l").1.mp hnone hopen

end Layout

end HtmlDoc
