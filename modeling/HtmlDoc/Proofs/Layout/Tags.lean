import HtmlDoc.Proofs.Layout.Composition
import HtmlDoc.Proofs.Text.Quiet
import HtmlDoc.Proofs.Tree.Names

/-!
The tags of rendered markup. A reader goes through a text from left to right and takes what stands
between an angle bracket that opens and the next one that closes for a tag. Main statement: of a
rendered tree it reads the tags of its elements in order, each with its attributes, and comes upon
no other angle bracket.
-/

namespace HtmlDoc

/-- A reader of markup: the tags it has read, what it has seen of the tag it is in, and how many
angle brackets it came upon that neither open nor close a tag. -/
structure TagReader where
  tags : List String := []
  inside : Option (List Char) := none
  stray : Nat := 0
deriving DecidableEq

namespace TagReader

/-- Reads a character. -/
def step : TagReader → Char → TagReader
  | ⟨tags, none, stray⟩, c =>
    if c = '<' then ⟨tags, some [], stray⟩
    else if c = '>' then ⟨tags, none, stray + 1⟩
    else ⟨tags, none, stray⟩
  | ⟨tags, some seen, stray⟩, c =>
    if c = '>' then ⟨tags ++ [String.ofList seen], none, stray⟩
    else if c = '<' then ⟨tags, some (seen ++ [c]), stray + 1⟩
    else ⟨tags, some (seen ++ [c]), stray⟩

/-- Reads a text. -/
def read (reader : TagReader) (text : String) : TagReader := text.toList.foldl step reader

theorem read_append (reader : TagReader) (left right : String) :
    reader.read (left ++ right) = (reader.read left).read right := by
  simp only [read, String.toList_append, List.foldl_append]

/-- Between tags a quiet text changes nothing. -/
theorem read_between {text : String} (h : Text.Quiet text) (tags : List String) (stray : Nat) :
    read ⟨tags, none, stray⟩ text = ⟨tags, none, stray⟩ := by
  rw [Text.Quiet] at h
  rw [read]
  generalize text.toList = cs at h ⊢
  induction cs with
  | nil => rfl
  | cons c cs ih =>
    rw [List.forall_mem_cons] at h
    rw [List.foldl_cons, step, if_neg h.1.1, if_neg h.1.2]
    exact ih h.2

/-- Inside a tag a quiet text is part of the tag. -/
theorem read_inside {text : String} (h : Text.Quiet text) (tags : List String) (seen : List Char)
    (stray : Nat) :
    read ⟨tags, some seen, stray⟩ text = ⟨tags, some (seen ++ text.toList), stray⟩ := by
  rw [Text.Quiet] at h
  rw [read]
  generalize text.toList = cs at h ⊢
  induction cs generalizing seen with
  | nil => rw [List.append_nil]; rfl
  | cons c cs ih =>
    rw [List.forall_mem_cons] at h
    rw [List.foldl_cons, step, if_neg h.1.2, if_neg h.1.1, ih _ h.2, List.append_assoc]
    rfl

/-- A quiet text between brackets is a tag. -/
theorem read_tag {tag : String} (h : Text.Quiet tag) (tags : List String) (stray : Nat) :
    read ⟨tags, none, stray⟩ (bracketed tag) = ⟨tags ++ [tag], none, stray⟩ := by
  -- The first bracket takes the reader into the tag, the second one out of it.
  have hopen : read ⟨tags, none, stray⟩ "<" = ⟨tags, some [], stray⟩ := rfl
  have hclose : read ⟨tags, some tag.toList, stray⟩ ">" = ⟨tags ++ [tag], none, stray⟩ := by
    change (⟨tags ++ [String.ofList tag.toList], none, stray⟩ : TagReader) = _
    rw [String.ofList_toList]
  rw [bracketed, read_append, read_append, hopen, read_inside h, List.nil_append, hclose]

end TagReader

mutual

/-- The tags of an element in the order they are written: the opening one with its attributes, those
of the children, and the closing one if there is one. -/
def Element.tags : Element → List String
  | ⟨tag, attrs, children, _, _, closed⟩ =>
    (tag ++ attrs.written) :: Node.tags children ++ closingTags tag (closed || !children.isEmpty)

/-- The tags of a tree in the order they are written. -/
def Node.tags : List Node → List String
  | [] => []
  | .text _ :: nodes => Node.tags nodes
  | .element child :: nodes => child.tags ++ Node.tags nodes

end

/-- If the text is taken for markup, it holds no angle bracket. -/
def Fragment.Quiet (fragment : Fragment) : Prop :=
  fragment.trusted = true → Text.Quiet fragment.text

/-- The texts among nodes that are taken for markup hold no angle brackets. -/
def Node.TextsQuiet (nodes : List Node) : Prop :=
  ∀ fragment, Node.text fragment ∈ nodes → fragment.Quiet

/-- The texts that an element gives to its attributes and has as children hold no angle brackets
where they are taken for markup. Other texts are free. -/
structure Element.Quiet (element : Element) : Prop where
  attrs : ∀ entry ∈ element.attrs.entries, ∀ fragment, entry.2 = .text fragment → fragment.Quiet
  children : Node.TextsQuiet element.children

namespace Fragment

theorem quiet_asMarkup {piece : Fragment} (h : piece.Quiet) : Text.Quiet piece.asMarkup := by
  rw [asMarkup]
  split
  · rename_i ht
    exact h ht
  · exact Text.quiet_escapeOnce piece.text

theorem Quiet.escapeOnce {piece : Fragment} (h : piece.Quiet) : piece.escapeOnce.Quiet :=
  fun _ => quiet_asMarkup h

end Fragment

theorem Node.textsQuiet_cons {node : Node} {nodes : List Node} :
    Node.TextsQuiet (node :: nodes) ↔
      (∀ fragment, node = .text fragment → fragment.Quiet) ∧ Node.TextsQuiet nodes := by
  simp only [Node.TextsQuiet, List.mem_cons]
  constructor
  · intro h
    refine ⟨fun fragment he => ?_, fun fragment hm => h fragment (Or.inr hm)⟩
    exact h fragment (Or.inl he.symm)
  · rintro ⟨hfirst, hrest⟩ fragment (he | hm)
    · exact hfirst fragment he.symm
    · exact hrest fragment hm

/-- Text that is given as children becomes one text taken for markup, with no angle brackets in it
unless it was given as markup with angle brackets. -/
theorem Node.textsQuiet_escapeOnce {fragment : Fragment} (h : fragment.Quiet) :
    Node.TextsQuiet [.text fragment.escapeOnce] := by
  intro given hm
  rw [List.mem_singleton, Node.text.injEq] at hm
  rw [hm]
  exact h.escapeOnce

namespace Fragment

/-- The fragment is markup whose tags are `tags`, with no other angle brackets in it. -/
structure Reads (out : Fragment) (tags : List String) : Prop where
  trusted : out.trusted = true
  read : TagReader.read {} out.text = ⟨tags, none, 0⟩

variable {out : Fragment} {tags : List String}

theorem reads_empty : empty.Reads [] := ⟨rfl, rfl⟩

theorem Reads.append_quiet (h : out.Reads tags) {text : String} (ht : Text.Quiet text) :
    (out.append text).Reads tags := by
  refine ⟨h.trusted, ?_⟩
  rw [append, TagReader.read_append, h.read, TagReader.read_between ht]

theorem Reads.append_tag (h : out.Reads tags) {tag : String} (ht : Text.Quiet tag) :
    (out.append (bracketed tag)).Reads (tags ++ [tag]) := by
  refine ⟨h.trusted, ?_⟩
  rw [append, TagReader.read_append, h.read, TagReader.read_tag ht]

theorem Reads.push (h : out.Reads tags) {piece : Fragment} (hp : piece.Quiet) :
    (out.push piece).Reads tags := by
  rw [Fragment.push, if_pos h.trusted]
  exact h.append_quiet (quiet_asMarkup hp)

theorem Reads.endLine (h : out.Reads tags) : out.endLine.Reads tags := by
  rw [Fragment.endLine]
  split
  · exact h
  · exact h.append_quiet (by decide)

theorem Reads.closingTag (h : out.Reads tags) {tag : String} (ht : Text.Quiet tag)
    (closed : Bool) :
    (out.append (closingTag tag closed)).Reads (tags ++ closingTags tag closed) := by
  rw [closingTag_eq]
  cases closed with
  | false =>
    rw [closingTags, if_neg Bool.false_ne_true, List.append_nil]
    exact h.append_quiet (by decide)
  | true =>
    have hslash : Text.Quiet ("/" ++ tag) := Text.quiet_append.mpr ⟨by decide, ht⟩
    rw [closingTags, if_pos rfl, List.map_singleton, String.join_cons, String.join_nil,
      String.append_empty]
    exact h.append_tag hslash

end Fragment

theorem AttrValue.quiet_written {key : String} {value : AttrValue} (hk : Text.Quiet key)
    (hv : ∀ fragment, value = .text fragment → fragment.Quiet) :
    Text.Quiet (value.written key) := by
  have hkey : Text.Quiet (" " ++ key) := Text.quiet_append.mpr ⟨by decide, hk⟩
  -- The value stands between quotes: that of a text as markup, that of a flag empty.
  have hquoted : Text.Quiet value.quoted := by
    cases value with
    | text fragment => exact Fragment.quiet_asMarkup (hv fragment rfl)
    | nil => exact (by decide : Text.Quiet "")
    | flag set => exact (by decide : Text.Quiet "")
  unfold written
  split_ifs
  · decide
  · exact hkey
  · simp only [Text.quiet_append]
    exact ⟨⟨⟨⟨by decide, hk⟩, by decide⟩, hquoted⟩, by decide⟩

theorem Attributes.quiet_written {attrs : Attributes} (hk : ∀ key ∈ attrs.keys, Text.Quiet key)
    (hv : ∀ entry ∈ attrs.entries, ∀ fragment, entry.2 = .text fragment → fragment.Quiet) :
    Text.Quiet attrs.written := by
  apply Text.quiet_join
  intro text ht
  obtain ⟨entry, hm, rfl⟩ := List.mem_map.mp ht
  exact AttrValue.quiet_written (hk entry.1 (List.mem_map.mpr ⟨entry, hm, rfl⟩)) (hv entry hm)

theorem Element.Named.quiet_tag {element : Element} (h : element.Named) :
    Text.Quiet element.tag := by
  obtain ⟨name, hname, htag⟩ := h.tag
  rw [htag]
  exact Name.quiet_lower (Name.quiet_of_isElementName hname)

theorem Element.Named.quiet_keys {element : Element} (h : element.Named) :
    ∀ key ∈ element.attrs.keys, Text.Quiet key := by
  intro key hm
  obtain hkey | ⟨name, hname, rfl⟩ := h.keys key hm
  · exact Name.quiet_of_isKey hkey
  · exact Name.quiet_lower (Name.quiet_of_isAccessorName hname)

namespace Layout

theorem quiet_indentation {layout : Layout} (hi : Text.Quiet layout.indent) (depth : Nat) :
    Text.Quiet (layout.indentation depth) := by
  apply Text.quiet_join
  intro text ht
  rw [List.eq_of_mem_replicate ht]
  exact hi

theorem quiet_lead {layout : Layout} (hi : Text.Quiet layout.indent) (depth : Nat)
    (fresh inline : Bool) : Text.Quiet (layout.lead depth fresh inline) := by
  rw [lead]
  split_ifs
  · exact quiet_indentation hi depth
  · decide
  · exact Text.quiet_append.mpr ⟨by decide, quiet_indentation hi depth⟩

variable {layout : Layout} {out : Fragment} {tags : List String}

/-- The opening tag of an element is one tag, with the attributes in it. -/
theorem reads_appendOpening (hi : Text.Quiet layout.indent) (depth : Nat) (fresh inline : Bool)
    (h : out.Reads tags) {element : Element} (hn : element.Named) (hq : element.Quiet) :
    (layout.appendOpening depth fresh inline out element.tag element.attrs).Reads
      (tags ++ [element.tag ++ element.attrs.written]) := by
  have hattrs : Text.Quiet element.attrs.written := Attributes.quiet_written hn.quiet_keys hq.attrs
  have hlead := h.append_quiet (quiet_lead hi depth fresh inline)
  rw [appendOpening_eq h.trusted, openingTag_eq, ← Fragment.append_append]
  exact hlead.append_tag (Text.quiet_append.mpr ⟨hn.quiet_tag, hattrs⟩)

-- What has been written so far is carried along: it reads as some tags, and each piece of a tree that
-- is written after it adds the tags of the piece.
mutual

theorem reads_appendTree (hi : Text.Quiet layout.indent) (depth : Nat) (fresh : Bool)
    {out : Fragment} {tags : List String} (h : out.Reads tags) (nodes : List Node)
    (hn : Node.Throughout Element.Named nodes) (ht : Node.TextsQuiet nodes)
    (hq : Node.Throughout Element.Quiet nodes) :
    (layout.appendTree depth fresh out nodes).Reads (tags ++ Node.tags nodes) := by
  cases nodes with
  | nil =>
    rw [appendTree, Node.tags, List.append_nil]
    exact h
  | cons node nodes =>
    obtain ⟨hown, htail⟩ := Node.textsQuiet_cons.mp ht
    cases node with
    | text fragment =>
      -- The first text of a fresh line is indented before it is written.
      rw [Node.throughout_text_cons] at hn hq
      have hstart : (if fresh then out.append (layout.indentation depth) else out).Reads tags := by
        split
        · exact h.append_quiet (quiet_indentation hi depth)
        · exact h
      rw [appendTree, Node.tags]
      exact reads_appendTree hi depth false (hstart.push (hown fragment rfl)) nodes hn htail hq
    | element child =>
      rw [Node.throughout_element_cons] at hn hq
      have hchild := reads_appendElement hi depth fresh h child hn.1 hq.1
      rw [appendTree, Node.tags, ← List.append_assoc]
      exact reads_appendTree hi depth fresh hchild nodes hn.2 htail hq.2

theorem reads_appendElement (hi : Text.Quiet layout.indent) (depth : Nat) (fresh : Bool)
    {out : Fragment} {tags : List String} (h : out.Reads tags) (element : Element)
    (hn : element.Throughout Element.Named) (hq : element.Throughout Element.Quiet) :
    (layout.appendElement depth fresh out element).Reads (tags ++ element.tags) := by
  obtain ⟨tag, attrs, children, void, inline, closed⟩ := element
  obtain ⟨hnamed, hn⟩ := (Element.throughout_iff _).mp hn
  obtain ⟨hquiet, hq⟩ := (Element.throughout_iff _).mp hq
  have hopen := reads_appendOpening hi depth fresh inline h hnamed hquiet
  have htag : Text.Quiet tag := hnamed.quiet_tag
  have hline : Text.Quiet "\n" := by decide
  have hchildren (depth : Nat) (fresh : Bool) {out : Fragment} {tags : List String}
      (h : out.Reads tags) := reads_appendTree hi depth fresh h children hn hquiet.children hq
  simp only [appendElement, Element.tags, List.cons_append]
  rw [List.append_cons tags, ← List.append_assoc]
  split_ifs with hinline hempty
  · -- Inline, the closing tag follows on the children.
    exact (hchildren (depth + 1) false hopen).closingTag htag _
  · -- A block without children has no lines inside.
    have hclose := (hopen.closingTag htag (closed || !children.isEmpty)).append_quiet hline
    rw [Fragment.append_append] at hclose
    rw [List.isEmpty_iff.mp hempty] at hclose ⊢
    rw [Node.tags, List.append_nil]
    exact hclose
  · -- A block with children writes line ends and indentation around them, and these are quiet.
    have hinside := (hchildren (depth + 1) true (hopen.append_quiet hline)).endLine
    have hclose := ((hinside.append_quiet (quiet_indentation hi depth)).closingTag htag
      (closed || !children.isEmpty)).append_quiet hline
    rw [Fragment.append_append, Fragment.append_append] at hclose
    rw [String.append_assoc]
    exact hclose

end

/-- Rendering adds no markup of its own making: read back, the rendering of a tree or an element has
the tags of its elements in order and no other angle bracket, whatever the plain texts in it are.
Nor do texts given as content or as children bring angle brackets in. -/
theorem read_markup (layout : Layout) (hi : Text.Quiet layout.indent) :
    (∀ nodes : List Node, (∀ element ∈ Node.elements nodes, element.Reachable) →
      Node.TextsQuiet nodes → Node.Throughout Element.Quiet nodes → ∀ (depth : Nat) (fresh : Bool),
        TagReader.read {} (layout.treeMarkup nodes depth fresh).text =
          ⟨Node.tags nodes, none, 0⟩) ∧
      (∀ element : Element, element.Reachable → element.Throughout Element.Quiet →
        ∀ (depth : Nat) (fresh : Bool),
          TagReader.read {} (layout.elementMarkup element depth fresh).text =
            ⟨element.tags, none, 0⟩) ∧
      ∀ (element : Element) (fragment : Fragment), fragment.Quiet →
        Node.TextsQuiet (element.assignChildren (.text fragment)).children ∧
          ∀ filled, element.fill (.text fragment) = .ok filled →
            Node.TextsQuiet filled.children := by
  refine ⟨?_, ?_, ?_⟩
  · intro nodes hr ht hq depth fresh
    have hn : Node.Throughout Element.Named nodes :=
      (Node.throughout_iff nodes).mpr fun element hm => (hr element hm).named
    exact (reads_appendTree hi depth fresh Fragment.reads_empty nodes hn ht hq).read
  · intro element hr hq depth fresh
    exact (reads_appendElement hi depth fresh Fragment.reads_empty element hr.named hq).read
  · intro element fragment hf
    refine ⟨Node.textsQuiet_escapeOnce hf, ?_⟩
    intro filled hfill
    cases hfill
    exact Node.textsQuiet_escapeOnce hf

/-- Brackets in plain texts, as an attribute, as content and beside an element: none of them is read
as part of a tag. -/
theorem read_markup_brackets : ∃ child parent : Element,
    Element.compose "B" (.text (.plain "<i>")) (.ofList [("title", .text (.plain "\"><i>"))]) =
      .ok child ∧
    Element.compose "p" (.element child) .empty = .ok parent ∧
    TagReader.read {} (treeMarkup ⟨"\t"⟩ [.text (.plain "1 < 2"), .element parent] 1 true).text =
      ⟨["p", "b title=\"&quot;&gt;&lt;i&gt;\"", "/b", "/p"], none, 0⟩ := by
  let attrs := Attributes.ofList [("title", .text (.plain "\"><i>"))]
  let child : Element := ⟨"b", attrs, [.text (.markup "&lt;i&gt;")], false, true, true⟩
  let parent : Element := ⟨"p", .empty, [.element child], false, false, true⟩
  let nodes : List Node := [.text (.plain "1 < 2"), .element parent]
  have hchild : Element.compose "B" (.text (.plain "<i>")) attrs = .ok child := rfl
  have hparent : Element.compose "p" (.element child) .empty = .ok parent := rfl
  obtain ⟨htree, -, hcontent⟩ := read_markup ⟨"\t"⟩ (by decide)
  have hplain (text : String) : (Fragment.plain text).Quiet := nofun
  have hin : child.Reachable := .compose (fun _ hg => absurd hg List.not_mem_nil) hchild
  have hgiven : ∀ given ∈ (Content.element child).elements, given.Reachable :=
    List.forall_mem_singleton.mpr hin
  have hout : parent.Reachable := .compose hgiven hparent
  have hattrs : ∀ entry ∈ attrs.entries, ∀ fragment, entry.2 = .text fragment →
      fragment.Quiet := by
    intro entry hm fragment he
    rw [List.mem_singleton.mp hm, AttrValue.text.injEq] at he
    exact he ▸ hplain _
  have hown : child.Quiet := ⟨hattrs, (hcontent child _ (hplain "<i>")).2 child rfl⟩
  have hbare : parent.Quiet := ⟨nofun, Node.textsQuiet_cons.mpr ⟨nofun, nofun⟩⟩
  have htexts : Node.TextsQuiet nodes := by
    refine Node.textsQuiet_cons.mpr ⟨?_, Node.textsQuiet_cons.mpr ⟨nofun, nofun⟩⟩
    rintro _ ⟨⟩
    exact hplain _
  have hthroughout : Node.Throughout Element.Quiet nodes := by
    intro inner hm
    have hcases : inner = parent ∨ inner = child := by
      simpa [Node.preorder, Element.preorder_eq, nodes, parent, child] using hm
    obtain rfl | rfl := hcases
    · exact hbare
    · exact hown
  refine ⟨child, parent, hchild, hparent, ?_⟩
  exact htree nodes (List.forall_mem_singleton.mpr hout) htexts hthroughout 1 true

end Layout

end HtmlDoc
