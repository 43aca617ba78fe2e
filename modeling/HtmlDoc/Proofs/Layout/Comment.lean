import HtmlDoc.Proofs.Layout.Composition

/-!
Where comments end. The text of a comment is written as it stands, so it can hold the mark that ends
a comment. Main statement: a comment ends at the mark written behind its text exactly when the text
does not hold one; otherwise it ends at the first mark in the text, and what follows there is read
as markup.
-/

namespace HtmlDoc

/-- What stands between the text of a comment and its marks. -/
def Node.commentPad (text : String) : String := if text.toList.contains '\n' then "\n" else " "

def Node.commentMarkup (text : String) : String :=
  "<!--" ++ commentPad text ++ text ++ commentPad text ++ "-->\n"

/-- The mark stands in the text between `before` and `after`, and nowhere earlier. -/
structure FirstAt (mark before after text : String) : Prop where
  cut : text = before ++ mark ++ after
  first : ∀ earlier later, text = earlier ++ mark ++ later → before.length ≤ earlier.length

theorem Node.comment_eq (text : String) :
    Node.comment text = .text (.markup (commentMarkup text)) := by
  unfold comment commentMarkup commentPad
  -- The marks and the padding beside them are written as one text each.
  have hopen (pad : String) : "<!--" ++ pad ++ text ++ pad ++ "-->\n" =
      ("<!--" ++ pad) ++ text ++ (pad ++ "-->\n") := by
    simp only [String.append_assoc]
  split
  · rw [hopen]
    rfl
  · rw [hopen]
    rfl

theorem Node.exists_commentPad (text : String) :
    ∃ pad : Char, (commentPad text).toList = [pad] ∧ pad ≠ '-' ∧ pad ≠ '>' := by
  unfold commentPad
  split
  · exact ⟨'\n', rfl, by decide, by decide⟩
  · exact ⟨' ', rfl, by decide, by decide⟩

/-- The opening mark of a comment does not close it, not even with the padding behind it. -/
theorem Node.mark_behind_opening {pad : Char} (hdash : pad ≠ '-') (hangle : pad ≠ '>')
    {rest before after : List Char}
    (h : '<' :: '!' :: '-' :: '-' :: pad :: rest = before ++ '-' :: '-' :: '>' :: after) :
    ∃ inside, before = '<' :: '!' :: '-' :: '-' :: pad :: inside ∧
      rest = inside ++ '-' :: '-' :: '>' :: after := by
  match before, h with
  | [], h => simp at h
  | [_], h => simp at h
  | [_, _], h => simp [hangle] at h
  | [_, _, _], h => simp [hdash] at h
  | [_, _, _, _], h => simp [hdash] at h
  | _ :: _ :: _ :: _ :: _ :: inside, h =>
    simp only [List.cons_append, List.cons.injEq] at h
    obtain ⟨rfl, rfl, rfl, rfl, rfl, hrest⟩ := h
    exact ⟨inside, rfl, hrest⟩

/-- A mark in a text with padding and a mark behind it is in the text, or it is the one behind it:
the padding keeps them apart. -/
theorem Node.mark_in_text_or_last {pad : Char} (hdash : pad ≠ '-') (hangle : pad ≠ '>')
    {text before after : List Char}
    (h : text ++ [pad, '-', '-', '>', '\n'] = before ++ '-' :: '-' :: '>' :: after) :
    (∃ rest, text = before ++ '-' :: '-' :: '>' :: rest ∧
      after = rest ++ [pad, '-', '-', '>', '\n']) ∨
    (before = text ++ [pad] ∧ after = ['\n']) := by
  rcases List.append_eq_append_iff.mp h with ⟨middle, hbefore, htail⟩ | ⟨middle, htext, htail⟩
  · -- The mark starts behind the text.
    right
    match middle, htail with
    | [], htail => simp [hdash] at htail
    | [_], htail =>
      simp only [List.cons_append, List.nil_append, List.cons.injEq, true_and] at htail
      rw [hbefore, htail.1, ← htail.2]
      exact ⟨rfl, rfl⟩
    | [_, _], htail => simp at htail
    | [_, _, _], htail => simp at htail
    | [_, _, _, _], htail => simp at htail
    | _ :: _ :: _ :: _ :: _ :: _, htail => simp at htail
  · -- It starts in the text, and the padding is no part of it.
    left
    match middle, htail with
    | [], htail => simp [hdash.symm] at htail
    | [_], htail => simp [hdash.symm] at htail
    | [_, _], htail => simp [hangle.symm] at htail
    | _ :: _ :: _ :: rest, htail =>
      simp only [List.cons_append, List.cons.injEq] at htail
      obtain ⟨rfl, rfl, rfl, hafter⟩ := htail
      exact ⟨rest, htext, hafter⟩

namespace Node

variable {text before after : String}

/-- A mark in the text of a comment is a mark in its markup. -/
theorem commentMarkup_cut {inside rest : String} (h : text = inside ++ "-->" ++ rest) :
    commentMarkup text = ("<!--" ++ commentPad text ++ inside) ++ "-->" ++
      (rest ++ commentPad text ++ "-->\n") := by
  have htext : commentMarkup text =
      "<!--" ++ commentPad text ++ (inside ++ "-->" ++ rest) ++ commentPad text ++ "-->\n" := by
    unfold commentMarkup
    rw [← h]
  rw [htext]
  simp only [String.append_assoc]

/-- There are no other marks in the markup of a comment than those in its text and the one that is
written to close it. -/
theorem closing_cases (h : commentMarkup text = before ++ "-->" ++ after) :
    (∃ inside rest, text = inside ++ "-->" ++ rest ∧
      before = "<!--" ++ commentPad text ++ inside ∧
      after = rest ++ commentPad text ++ "-->\n") ∨
    (before = "<!--" ++ commentPad text ++ text ++ commentPad text ∧ after = "\n") := by
  obtain ⟨pad, hpad, hdash, hangle⟩ := exists_commentPad text
  have hopen : "<!--".toList = ['<', '!', '-', '-'] := rfl
  have hmark : "-->".toList = ['-', '-', '>'] := rfl
  have hend : "-->\n".toList = ['-', '-', '>', '\n'] := rfl
  have hline : "\n".toList = ['\n'] := rfl
  have hchars : '<' :: '!' :: '-' :: '-' :: pad :: (text.toList ++ [pad, '-', '-', '>', '\n']) =
      before.toList ++ '-' :: '-' :: '>' :: after.toList := by
    simpa [commentMarkup, hpad, hopen, hmark, hend] using congrArg String.toList h
  obtain ⟨inside, hbefore, hrest⟩ := mark_behind_opening hdash hangle hchars
  rcases mark_in_text_or_last hdash hangle hrest with ⟨rest, htext, hafter⟩ | ⟨hinside, hafter⟩
  · left
    refine ⟨String.ofList inside, String.ofList rest, ?_, ?_, ?_⟩
    · rw [← String.toList_inj]
      simp [htext, hmark]
    · rw [← String.toList_inj]
      simp [hbefore, hopen, hpad]
    · rw [← String.toList_inj]
      simp [hafter, hpad, hend]
  · right
    constructor
    · rw [← String.toList_inj]
      simp [hbefore, hinside, hopen, hpad]
    · rw [← String.toList_inj, hafter, hline]

/-- A comment whose text holds no closing mark ends where it should. -/
theorem firstAt_of_forall_ne (h : ∀ inside rest, text ≠ inside ++ "-->" ++ rest) :
    FirstAt "-->" ("<!--" ++ commentPad text ++ text ++ commentPad text) "\n"
      (commentMarkup text) := by
  constructor
  · unfold commentMarkup
    simp only [String.append_assoc]
    rfl
  · intro earlier later hcut
    rcases closing_cases hcut with ⟨inside, rest, htext, -, -⟩ | ⟨hearlier, -⟩
    · exact absurd htext (h inside rest)
    · exact Nat.le_of_eq (congrArg String.length hearlier.symm)

/-- A comment whose text holds the closing mark ends at the first one. -/
theorem firstAt_of_firstAt (h : FirstAt "-->" before after text) :
    FirstAt "-->" ("<!--" ++ commentPad text ++ before) (after ++ commentPad text ++ "-->\n")
      (commentMarkup text) := by
  constructor
  · exact commentMarkup_cut h.cut
  · intro earlier later hcut
    rcases closing_cases hcut with ⟨inside, rest, htext, hearlier, -⟩ | ⟨hearlier, -⟩
    · have hfirst := h.first inside rest htext
      rw [hearlier, String.length_append _ before, String.length_append _ inside]
      omega
    · have hlength := congrArg String.length h.cut
      simp only [String.length_append] at hlength
      simp only [hearlier, String.length_append]
      omega

end Node

namespace Layout

/-- A comment is written as its markup, behind the nodes it was pushed to; a fresh line is indented
before it. -/
theorem treeMarkup_comment (layout : Layout) (nodes : List Node) (text : String) (depth : Nat)
    (fresh : Bool) :
    (layout.treeMarkup (nodes ++ [Node.comment text]) depth fresh).text =
      (layout.treeMarkup nodes depth fresh).text ++
        (if freshAfter fresh nodes then layout.indentation depth else "") ++
          Node.commentMarkup text := by
  have hcomment (fresh : Bool) : layout.treeText depth fresh [Node.comment text] =
      (if fresh then layout.indentation depth else "") ++ Node.commentMarkup text := by
    rw [Node.comment_eq, treeText, treeText, String.append_empty]
    rfl
  rw [treeMarkup_eq, treeMarkup_eq, Fragment.markup, Fragment.markup, treeText_append, hcomment,
    String.append_assoc]

/-- Where a comment ends. Written behind any nodes, it is closed by the mark at its own end exactly
when its text holds no closing mark. If the text does hold one, the comment ends at the first of
them, and the rest of the text is markup. -/
theorem comment_closed_iff (layout : Layout) (nodes : List Node) (text : String) (depth : Nat)
    (fresh : Bool) :
    (layout.treeMarkup (nodes ++ [Node.comment text]) depth fresh).text =
      (layout.treeMarkup nodes depth fresh).text ++
        (if freshAfter fresh nodes then layout.indentation depth else "") ++
          Node.commentMarkup text ∧
    (FirstAt "-->" ("<!--" ++ Node.commentPad text ++ text ++ Node.commentPad text) "\n"
        (Node.commentMarkup text) ↔
      ∀ inside rest, text ≠ inside ++ "-->" ++ rest) ∧
    ∀ inside rest, FirstAt "-->" inside rest text →
      FirstAt "-->" ("<!--" ++ Node.commentPad text ++ inside)
        (rest ++ Node.commentPad text ++ "-->\n") (Node.commentMarkup text) := by
  refine ⟨treeMarkup_comment layout nodes text depth fresh, ⟨?_, Node.firstAt_of_forall_ne⟩,
    fun inside rest => Node.firstAt_of_firstAt⟩
  intro hclosed inside rest htext
  -- The mark in the text would come before the one at the end.
  have hfirst := hclosed.first _ _ (Node.commentMarkup_cut htext)
  have hlength : text.length = inside.length + 3 + rest.length := by
    rw [htext, String.length_append, String.length_append]
    rfl
  rw [String.length_append, String.length_append _ text, String.length_append _ inside] at hfirst
  omega

/-- A text that holds the mark, behind another text: the comment ends at the mark. -/
theorem comment_closed_early :
    FirstAt "-->" "x " " y" "x --> y" ∧
    FirstAt "-->" "<!-- x " " y -->\n" (Node.commentMarkup "x --> y") ∧
    (treeMarkup {} ([.text (.plain "<p>")] ++ [Node.comment "x --> y"]) 1 true).text =
      "  &lt;p&gt;<!-- x --> y -->\n" := by
  have hfirst : FirstAt "-->" "x " " y" "x --> y" := by
    refine ⟨rfl, fun earlier later hcut => ?_⟩
    have hchars := congrArg String.toList hcut
    rw [String.toList_append, String.toList_append] at hchars
    rw [← String.length_toList, ← String.length_toList]
    -- Neither of the first two characters is a dash.
    match hearlier : earlier.toList with
    | [] => simp [hearlier] at hchars
    | [_] => simp [hearlier] at hchars
    | _ :: _ :: _ => exact Nat.le_add_left 2 _
  obtain ⟨hmarkup, -, hclosed⟩ :=
    comment_closed_iff {} [.text (.plain "<p>")] "x --> y" 1 true
  refine ⟨hfirst, hclosed "x " " y" hfirst, ?_⟩
  rw [hmarkup]
  decide

/-- Not every comment ends at the mark that is written behind its text. -/
theorem not_every_comment_closed : ¬ ∀ text : String, ∃ body,
    FirstAt "-->" body "\n" (treeMarkup {} [Node.comment text] 0 true).text := by
  intro hall
  have hmarkup : (treeMarkup {} [Node.comment "x --> y"] 0 true).text = "<!-- x --> y -->\n" := by
    decide
  obtain ⟨body, hbody⟩ := hall "x --> y"
  rw [hmarkup] at hbody
  -- The body would be all that comes before the last mark, but there is a mark earlier.
  have hearly : body.length ≤ 7 := hbody.first "<!-- x " " y -->\n" rfl
  have hlength : 17 = body.length + 3 + 1 := by
    have hcut := congrArg String.length hbody.cut
    rw [String.length_append, String.length_append] at hcut
    exact hcut
  omega

end Layout

end HtmlDoc
