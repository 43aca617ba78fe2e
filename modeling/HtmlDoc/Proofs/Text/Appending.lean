import HtmlDoc.Proofs.Text.Escaped

/-!
Appending piece by piece. A fragment stays trusted or plain whatever is appended to it, and its text
is what it was, followed by what each piece contributes. Main statement: this holds for every
history of appendings, and trusted text that is put together from plain pieces is escaped text,
which a reader of references takes for the pieces one by one.
-/

namespace HtmlDoc

namespace Fragment

/-- What is appended: a fragment, or a copy of the one that it is appended to. -/
inductive Piece where
  | given (fragment : Fragment)
  | copy

def Piece.of (f : Fragment) : Piece → Fragment
  | given fragment => fragment
  | copy => f

/-- The ways to append: in place or to a copy, each by a call or by an operator. -/
inductive Way where
  | push
  | concat
  | add
  | addAssign

def Way.apply (f piece : Fragment) : Way → Fragment
  | push => f.push piece
  | concat => f.concat piece
  | add => f + piece
  | addAssign => f.push piece

structure Appending where
  way : Way
  piece : Piece

def Appending.run (f : Fragment) (appending : Appending) : Fragment :=
  appending.way.apply f (appending.piece.of f)

/-- Appends one piece after the other. -/
def appendAll (f : Fragment) (appendings : List Appending) : Fragment :=
  appendings.foldl Appending.run f

/-- The pieces of a history that starts with `f`, each as it is when it is appended. -/
def pieces (f : Fragment) : List Appending → List Fragment
  | [] => []
  | appending :: appendings =>
    appending.piece.of f :: (appending.run f).pieces appendings

/-- What a piece adds to a text that is trusted, or to one that is not. -/
def contribution (trusted : Bool) (piece : Fragment) : String :=
  if trusted then piece.asMarkup else piece.text

theorem run_eq (f : Fragment) (appending : Appending) :
    appending.run f = f.append (contribution f.trusted (appending.piece.of f)) := by
  obtain ⟨way, piece⟩ := appending
  cases way <;> rfl

/-- No appending changes the flag, so the pieces of a history all contribute in the same way. -/
theorem appendAll_eq (f : Fragment) (appendings : List Appending) :
    f.appendAll appendings =
      f.append (String.join ((f.pieces appendings).map (contribution f.trusted))) := by
  -- A copy further on is one of the longer fragment, so the start is not fixed in the induction.
  induction appendings generalizing f with
  | nil => exact f.append_empty.symm
  | cons appending appendings ih =>
    have hflag : (appending.run f).trusted = f.trusted := by rw [run_eq, append]
    have hrest := ih (appending.run f)
    rw [appendAll] at hrest
    rw [appendAll, List.foldl_cons, hrest, pieces, List.map_cons, String.join_cons, hflag, run_eq,
      append_append]

end Fragment

namespace Text

variable {table : EntityTable} {read : List Char → List Char}

/-- A reader that has come to the end of an escaped text stands behind a whole reference or behind a
character, so what follows is read as it is read alone. -/
theorem EntityTable.Reader.read_append (h : table.Reader read) {left : List Char}
    (hl : IsEscaped left) (right : List Char) : read (left ++ right) = read left ++ read right := by
  -- The reader takes a whole reference at once, so this is not an induction on the characters.
  match left with
  | [] => rw [h.nil, List.nil_append, List.nil_append]
  | c :: left =>
    obtain ⟨⟨-, hamp⟩, hleft⟩ := isEscaped_cons.mp hl
    by_cases hc : c = '&'
    · obtain ⟨name, rest, hcut, hname⟩ := (startsReference_iff left).mp (hamp hc)
      have hrest : IsEscaped rest := by
        rw [hcut, List.append_cons] at hleft
        exact hleft.of_append_right
      have hshorter : rest.length < left.length := by
        rw [hcut, List.length_append, List.length_cons]
        omega
      have hread := read_append h hrest right
      rw [hc, hcut]
      calc read ('&' :: (name ++ ';' :: rest) ++ right)
          _ = read ('&' :: (name ++ ';' :: (rest ++ right))) := by
            rw [List.cons_append, List.append_assoc, List.cons_append]
          _ = table.value name ++ (read rest ++ read right) := by rw [h.reference _ hname, hread]
          _ = read ('&' :: (name ++ ';' :: rest)) ++ read right := by
            rw [h.reference _ hname, List.append_assoc]
    · have hread := read_append h hleft right
      rw [List.cons_append, h.read_cons fun hamp => absurd hamp hc,
        h.read_cons fun hamp => absurd hamp hc, hread, List.cons_append]
termination_by left.length
decreasing_by
  · exact Nat.lt_succ_of_lt hshorter
  · exact Nat.lt_succ_self left.length

theorem EntityTable.Reader.read_join (h : table.Reader read) {texts : List String}
    (ht : ∀ text ∈ texts, IsEscaped text.toList) :
    read (String.join texts).toList = texts.flatMap fun text => read text.toList := by
  induction texts with
  | nil => exact h.nil
  | cons text texts ih =>
    obtain ⟨htext, htexts⟩ := List.forall_mem_cons.mp ht
    rw [String.join_cons, String.toList_append, h.read_append htext, ih htexts, List.flatMap_cons]

end Text

namespace Fragment

/-- If the fragment is taken for markup, its text is escaped text. -/
def Escaped (fragment : Fragment) : Prop :=
  fragment.trusted = true → Text.IsEscaped fragment.text.toList

/-- Every fragment that is given in a history meets `p`. -/
def Gives (p : Fragment → Prop) (appendings : List Appending) : Prop :=
  ∀ appending ∈ appendings, ∀ fragment, appending.piece = .given fragment → p fragment

theorem Escaped.isEscaped_asMarkup {piece : Fragment} (h : piece.Escaped) :
    Text.IsEscaped piece.asMarkup.toList := by
  unfold asMarkup
  split
  · rename_i ht
    exact h ht
  · exact Text.isEscaped_escapeOnce piece.text

/-- As markup a piece is read as its text is read, whether it has been escaped or not. -/
theorem read_asMarkup {table : Text.EntityTable} {read : List Char → List Char}
    (h : table.Reader read) (piece : Fragment) :
    read piece.asMarkup.toList = read piece.text.toList := by
  unfold asMarkup
  split
  · rfl
  · rw [Text.escapeOnce, String.toList_ofList]
    exact h.read_escapeChars piece.text.toList

theorem Escaped.run {f : Fragment} {appending : Appending} (hf : f.trusted = true)
    (h : f.Escaped) (hpiece : (appending.piece.of f).Escaped) : (appending.run f).Escaped := by
  intro _
  rw [run_eq, contribution, if_pos hf, append, String.toList_append]
  exact (h hf).append hpiece.isEscaped_asMarkup

/-- The copies in a history are escaped text because all that has been appended before them is. -/
theorem escaped_pieces {f : Fragment} (hf : f.trusted = true) (h : f.Escaped)
    {appendings : List Appending} (hgiven : Gives Escaped appendings) :
    ∀ piece ∈ f.pieces appendings, piece.Escaped := by
  -- Each step hands on that the fragment so far is trusted and escaped.
  induction appendings generalizing f with
  | nil => exact nofun
  | cons appending appendings ih =>
    obtain ⟨hfirst, hrest⟩ := List.forall_mem_cons.mp hgiven
    have hpiece : (appending.piece.of f).Escaped := by
      cases hcase : appending.piece with
      | given fragment => exact hfirst fragment hcase
      | copy => exact h
    have hrun : (appending.run f).trusted = true := by
      rw [run_eq]
      exact trusted_append hf _
    rw [pieces]
    exact List.forall_mem_cons.mpr ⟨hpiece, ih hrun (h.run hf hpiece) hrest⟩

/-- What comes of a history of appendings, by any calls and operators, of fragments and of copies of
the text itself. The flag stays, and the text is followed by the pieces: as markup if it is trusted,
and as they stand if it is not. Where only plain fragments go into a new trusted text, the outcome
is escaped text, and it is read as the pieces are read one by one, even if a reference is cut by a
seam. -/
theorem appendAll_text :
    (∀ (start : Fragment) (appendings : List Appending),
      (start.appendAll appendings).trusted = start.trusted ∧
      (start.trusted = true → (start.appendAll appendings).text = start.text ++
        String.join ((start.pieces appendings).map fun piece =>
          if piece.trusted then piece.text else Text.escapeOnce piece.text)) ∧
      (start.trusted = false → (start.appendAll appendings).text = start.text ++
        String.join ((start.pieces appendings).map fun piece => piece.text))) ∧
    ∀ appendings : List Appending, Gives (fun fragment => fragment.trusted = false) appendings →
      (∀ c ∈ (empty.appendAll appendings).text.toList, c ≠ '<' ∧ c ≠ '>' ∧ c ≠ '"') ∧
      Text.escapeOnce (empty.appendAll appendings).text = (empty.appendAll appendings).text ∧
      ∀ (table : Text.EntityTable) (read : List Char → List Char), table.Reader read →
        read (empty.appendAll appendings).text.toList =
          (empty.pieces appendings).flatMap fun piece => read piece.text.toList := by
  refine ⟨?history, ?plain⟩
  case history =>
    intro start appendings
    rw [appendAll_eq]
    refine ⟨rfl, ?_, ?_⟩
    · intro htrusted
      rw [htrusted]
      rfl
    · intro hplain
      rw [hplain]
      rfl
  case plain =>
    intro appendings hgiven
    have hempty : empty.Escaped := fun _ => Text.isEscaped_nil
    -- No condition is on plain fragments. The copies are trusted, and escaped by the invariant.
    have hescaped : Gives Escaped appendings := by
      intro appending hmem fragment hpiece htrusted
      have hplain : fragment.trusted = false := hgiven appending hmem fragment hpiece
      rw [htrusted] at hplain
      cases hplain
    have hpieces := escaped_pieces rfl hempty hescaped
    have htext : (empty.appendAll appendings).text =
        String.join ((empty.pieces appendings).map asMarkup) := by
      rw [appendAll_eq]
      exact String.empty_append
    have hmarkup : ∀ text ∈ (empty.pieces appendings).map asMarkup,
        Text.IsEscaped text.toList := by
      rw [List.forall_mem_map]
      exact fun piece hmem => (hpieces piece hmem).isEscaped_asMarkup
    have hjoin := Text.isEscaped_join hmarkup
    rw [htext]
    refine ⟨hjoin.unmarked, Text.escapeOnce_of_isEscaped hjoin, ?_⟩
    intro table read hread
    rw [hread.read_join hmarkup, List.flatMap_map]
    simp only [read_asMarkup hread]

/-- A reference cut in two, a bracket, a copy of what is there already and a reference on its own,
put after nothing; then the cut reference after markup and after plain text. -/
theorem appendAll_text_seam :
    let cut : List Appending := [⟨.push, .given (.plain "&am")⟩, ⟨.add, .given (.plain "p;<")⟩]
    let history := cut ++ [⟨.concat, .copy⟩, ⟨.addAssign, .given (.plain "&#39;")⟩]
    (empty.appendAll history).text = "&amp;amp;&lt;&amp;amp;&lt;&#39;" ∧
    Text.escapeOnce (empty.appendAll history).text = (empty.appendAll history).text ∧
    Text.EntityTable.ofWritten.decodeFrom 0 (empty.appendAll history).text.toList =
      "&amp;<&amp;<&#39;".toList ∧
    ((markup "<b>").appendAll cut).text = "<b>&amp;amp;&lt;" ∧
    ((plain "<b>").appendAll cut).text = "<b>&amp;<" := by
  intro cut history
  obtain ⟨htext, hplain⟩ := appendAll_text
  have hgiven : Gives (fun fragment => fragment.trusted = false) history := by
    intro appending hmem fragment hpiece
    simp only [history, cut, List.cons_append, List.nil_append, List.mem_cons, List.not_mem_nil,
      or_false] at hmem
    rcases hmem with rfl | rfl | rfl | rfl <;> cases hpiece <;> rfl
  obtain ⟨-, hfixed, hread⟩ := hplain history hgiven
  have hreader := Text.EntityTable.ofWritten.reader_decodeFrom
  refine ⟨?_, hfixed, ?_, ?_, ?_⟩
  · exact ((htext empty history).2.1 rfl).trans (by decide)
  · rw [hread _ _ hreader]
    decide
  · exact ((htext (markup "<b>") cut).2.1 rfl).trans (by decide)
  · exact ((htext (plain "<b>") cut).2.2 rfl).trans (by decide)

end Fragment

end HtmlDoc
