import HtmlDoc.Text.Entity

/-!
What escaped text stands for. A reader of markup takes each complete reference for what a table
says and any other character for itself. Main statement: every such reader takes an escaped text for
what it took the text for before, however references and bare ampersands follow on each other.
-/

namespace HtmlDoc.Text

/-- Whether `name` makes a complete reference between an ampersand and a semicolon: ASCII letters,
or a number sign and ASCII digits. -/
def isReferenceName : List Char → Bool
  | '#' :: digits => !digits.isEmpty && digits.all Char.isDigit
  | letters => !letters.isEmpty && letters.all Char.isAlpha

/-- What complete references stand for, by name. The names that escaping writes are fixed. -/
structure EntityTable where
  value : List Char → List Char
  amp : value ['a', 'm', 'p'] = ['&']
  lt : value ['l', 't'] = ['<']
  gt : value ['g', 't'] = ['>']
  quot : value ['q', 'u', 'o', 't'] = ['"']

/-- `read` goes through a text from left to right, takes a complete reference for its value and goes
on after the semicolon, and takes any other character for itself. -/
structure EntityTable.Reader (table : EntityTable) (read : List Char → List Char) : Prop where
  nil : read [] = []
  reference : ∀ {name : List Char} (rest : List Char), isReferenceName name = true →
    read ('&' :: (name ++ ';' :: rest)) = table.value name ++ read rest
  other : ∀ {c : Char} {rest : List Char},
    (c = '&' → ∀ name after, isReferenceName name = true → rest ≠ name ++ ';' :: after) →
    read (c :: rest) = c :: read rest

theorem isReferenceName_mem {name : List Char} (h : isReferenceName name = true) :
    ∀ c ∈ name, (c.isAlphanum || c == '#') = true := by
  unfold isReferenceName at h
  split at h
  · rename_i digits
    rw [Bool.and_eq_true, List.all_eq_true] at h
    intro c hc
    rcases List.mem_cons.mp hc with rfl | hc
    · rfl
    · simp [Char.isAlphanum, h.2 c hc]
  · rw [Bool.and_eq_true, List.all_eq_true] at h
    intro c hc
    simp [Char.isAlphanum, h.2 c hc]

theorem ne_of_isReferenceName {name : List Char} (h : isReferenceName name = true) {d : Char}
    (hd : (d.isAlphanum || d == '#') = false) : ∀ c ∈ name, c ≠ d := by
  rintro c hc rfl
  have hin := isReferenceName_mem h c hc
  rw [hd] at hin
  cases hin

theorem startsWithRun_iff {p : Char → Bool} (hp : p ';' = false) (cs : List Char) :
    startsWithRun p cs = true ↔ ∃ run rest, cs = run ++ ';' :: rest ∧
      (!run.isEmpty && run.all p) = true := by
  unfold startsWithRun
  constructor
  · intro h
    rw [Bool.and_eq_true, beq_iff_eq] at h
    obtain ⟨rest, hrest⟩ := List.head?_eq_some_iff.mp h.2
    have hcut : cs.takeWhile p ++ cs.dropWhile p = cs := List.takeWhile_append_dropWhile
    rw [hrest] at hcut
    have hall : (cs.takeWhile p).all p = true := List.all_takeWhile
    exact ⟨cs.takeWhile p, rest, hcut.symm, by rw [h.1, hall]; rfl⟩
  · rintro ⟨run, rest, rfl, hrun⟩
    rw [Bool.and_eq_true, List.all_eq_true] at hrun
    have htake : (run ++ ';' :: rest).takeWhile p = run := by
      rw [List.takeWhile_append_of_pos hrun.2, List.takeWhile_cons_of_neg (by simp [hp]),
        List.append_nil]
    have hdrop : (run ++ ';' :: rest).dropWhile p = ';' :: rest := by
      rw [List.dropWhile_append_of_pos hrun.2, List.dropWhile_cons_of_neg (by simp [hp])]
    rw [htake, hdrop, hrun.1]
    rfl

theorem isReferenceName_of_ne {name : List Char} (h : ∀ digits, name ≠ '#' :: digits) :
    isReferenceName name = (!name.isEmpty && name.all Char.isAlpha) := by
  unfold isReferenceName
  split
  · rename_i digits
    exact absurd rfl (h digits)
  · rfl

/-- An ampersand starts a reference where the name of one follows, and then a semicolon. -/
theorem startsReference_iff (cs : List Char) :
    startsReference cs = true ↔ ∃ name rest, cs = name ++ ';' :: rest ∧
      isReferenceName name = true := by
  unfold startsReference
  split
  · rename_i digits
    rw [startsWithRun_iff (by decide)]
    constructor
    · rintro ⟨run, rest, rfl, hrun⟩
      exact ⟨'#' :: run, rest, rfl, hrun⟩
    · rintro ⟨name, rest, hcut, hname⟩
      cases name with
      | nil => exact absurd (List.cons.inj hcut).1 (by decide)
      | cons c run =>
        obtain ⟨rfl, htail⟩ := List.cons.inj hcut
        exact ⟨run, rest, htail, hname⟩
  · rename_i hhash
    -- Without a number sign in front the name can only be letters.
    have hletters {run rest : List Char} (hcut : cs = run ++ ';' :: rest) :
        isReferenceName run = (!run.isEmpty && run.all Char.isAlpha) := by
      apply isReferenceName_of_ne
      rintro digits rfl
      exact hhash _ hcut
    rw [startsWithRun_iff (by decide)]
    constructor
    · rintro ⟨run, rest, hcut, hrun⟩
      exact ⟨run, rest, hcut, (hletters hcut).trans hrun⟩
    · rintro ⟨name, rest, hcut, hname⟩
      exact ⟨name, rest, hcut, (hletters hcut).symm.trans hname⟩

/-- A character that means nothing in markup is written as it stands. -/
theorem escapeChar_of_plain {c : Char} (h : c ≠ '&' ∧ c ≠ '<' ∧ c ≠ '>' ∧ c ≠ '"')
    (rest : List Char) : escapeChar c rest = [c] := by
  unfold escapeChar
  rw [if_neg h.1, if_neg h.2.1, if_neg h.2.2.1, if_neg h.2.2.2]

theorem escapeChars_append_of_plain {run : List Char}
    (h : ∀ c ∈ run, c ≠ '&' ∧ c ≠ '<' ∧ c ≠ '>' ∧ c ≠ '"') (rest : List Char) :
    escapeChars (run ++ rest) = run ++ escapeChars rest := by
  induction run with
  | nil => rfl
  | cons c run ih =>
    rw [List.forall_mem_cons] at h
    rw [List.cons_append, escapeChars, escapeChar_of_plain h.1, ih h.2]
    rfl

/-- The name of a reference and its semicolon are written as they stand. -/
theorem escapeChars_reference {name : List Char} (h : isReferenceName name = true)
    (rest : List Char) : escapeChars (name ++ ';' :: rest) = name ++ ';' :: escapeChars rest := by
  have hname : ∀ c ∈ name, c ≠ '&' ∧ c ≠ '<' ∧ c ≠ '>' ∧ c ≠ '"' := by
    intro c hc
    have hne {d : Char} (hd : (d.isAlphanum || d == '#') = false) : c ≠ d :=
      ne_of_isReferenceName h hd c hc
    exact ⟨hne (by decide), hne (by decide), hne (by decide), hne (by decide)⟩
  have hend : escapeChars (';' :: rest) = ';' :: escapeChars rest := rfl
  rw [escapeChars_append_of_plain hname, hend]

namespace EntityTable

variable {table : EntityTable} {read : List Char → List Char}

/-- A character that starts no reference is read as itself. -/
theorem Reader.read_cons (h : table.Reader read) {c : Char} {cs : List Char}
    (hc : c = '&' → startsReference cs = false) : read (c :: cs) = c :: read cs := by
  apply h.other
  intro hamp name after hname hcut
  have href : startsReference cs = true := (startsReference_iff cs).mpr ⟨name, after, hcut, hname⟩
  rw [hc hamp] at href
  cases href

/-- What is written for a character that starts no reference is read as that character. -/
theorem Reader.read_escapeChar (h : table.Reader read) {c : Char} {cs : List Char}
    (hc : c = '&' → startsReference cs = false) (after : List Char) :
    read (escapeChar c cs ++ after) = c :: read after := by
  -- It is the reference to the character, or else the character.
  have hwritten {name : List Char} (hname : isReferenceName name = true)
      (hvalue : table.value name = [c]) :
      read ('&' :: (name ++ ';' :: after)) = c :: read after := by
    rw [h.reference _ hname, hvalue]
    rfl
  unfold escapeChar
  split
  · rename_i hamp
    subst hamp
    rw [hc rfl]
    exact hwritten rfl table.amp
  rename_i hamp
  split
  · rename_i hlt
    subst hlt
    exact hwritten rfl table.lt
  split
  · rename_i hgt
    subst hgt
    exact hwritten rfl table.gt
  split
  · rename_i hquot
    subst hquot
    exact hwritten rfl table.quot
  · exact h.read_cons fun h => absurd h hamp

/-- The text and its escaped form are read side by side. After each step both readings stand at the
same place of the text: behind a whole reference, or behind one character. -/
theorem Reader.read_escapeChars (h : table.Reader read) (cs : List Char) :
    read (escapeChars cs) = read cs := by
  match cs with
  | [] => rfl
  | c :: cs =>
    by_cases href : c = '&' ∧ startsReference cs = true
    · obtain ⟨rfl, href⟩ := href
      have hkeep : escapeChar '&' cs = ['&'] := by
        unfold escapeChar
        rw [if_pos rfl, if_pos href]
      obtain ⟨name, rest, hcut, hname⟩ := (startsReference_iff cs).mp href
      have hshorter : rest.length < cs.length := by
        rw [hcut, List.length_append, List.length_cons]
        omega
      have hrest := read_escapeChars h rest
      calc read (escapeChars ('&' :: cs))
          _ = read ('&' :: (name ++ ';' :: escapeChars rest)) := by
            rw [escapeChars, hkeep, hcut, escapeChars_reference hname, List.singleton_append]
          _ = table.value name ++ read rest := by rw [h.reference _ hname, hrest]
          _ = read ('&' :: cs) := by rw [hcut, h.reference _ hname]
    · have hc : c = '&' → startsReference cs = false := by
        intro hamp
        rw [Bool.eq_false_iff]
        exact fun hstarts => href ⟨hamp, hstarts⟩
      have hrest := read_escapeChars h cs
      rw [escapeChars, h.read_escapeChar hc, h.read_cons hc, hrest]
termination_by cs.length
decreasing_by
  · exact Nat.lt_succ_of_lt hshorter
  · exact Nat.lt_succ_self cs.length

/-- The name of the reference that `cs` goes on with behind an ampersand. -/
def referenceName? (cs : List Char) : Option (List Char) :=
  let name := cs.takeWhile (· != ';')
  if cs.contains ';' && isReferenceName name then some name else none

/-- Reads a text by the table; `skip` characters belong to a reference that has been read. -/
def decodeFrom (table : EntityTable) : Nat → List Char → List Char
  | _, [] => []
  | skip + 1, _ :: cs => table.decodeFrom skip cs
  | 0, c :: cs =>
    match if c = '&' then referenceName? cs else none with
    | some name => table.value name ++ table.decodeFrom (name.length + 1) cs
    | none => c :: table.decodeFrom 0 cs

theorem referenceName?_append {before rest : List Char} (h : ';' ∉ before) :
    referenceName? (before ++ ';' :: rest) =
      if isReferenceName before then some before else none := by
  have hall : ∀ c ∈ before, (c != ';') = true := by
    intro c hc
    rw [bne_iff_ne]
    rintro rfl
    exact h hc
  have htake : (before ++ ';' :: rest).takeWhile (· != ';') = before := by
    rw [List.takeWhile_append_of_pos hall, List.takeWhile_cons_of_neg (by decide),
      List.append_nil]
  simp [referenceName?, htake]

theorem referenceName?_eq_some {cs name : List Char} :
    referenceName? cs = some name ↔ isReferenceName name = true ∧
      ∃ rest, cs = name ++ ';' :: rest := by
  constructor
  · intro h
    by_cases hmem : ';' ∈ cs
    · obtain ⟨before, rest, rfl, hfree⟩ := List.eq_append_cons_of_mem hmem
      rw [referenceName?_append hfree] at h
      split at h
      · rename_i hname
        cases h
        exact ⟨hname, rest, rfl⟩
      · cases h
    · simp [referenceName?, hmem] at h
  · rintro ⟨hname, rest, rfl⟩
    have hfree : ';' ∉ name := by
      intro hin
      exact ne_of_isReferenceName hname (by decide) ';' hin rfl
    rw [referenceName?_append hfree, if_pos hname]

theorem decodeFrom_length (table : EntityTable) (run rest : List Char) :
    table.decodeFrom run.length (run ++ rest) = table.decodeFrom 0 rest := by
  induction run with
  | nil => rfl
  | cons c run ih => exact ih

/-- Every table has a reader. -/
theorem reader_decodeFrom (table : EntityTable) : table.Reader (table.decodeFrom 0) where
  nil := rfl
  reference := by
    intro name rest hname
    have hcut : referenceName? (name ++ ';' :: rest) = some name :=
      referenceName?_eq_some.mpr ⟨hname, rest, rfl⟩
    have hskip := table.decodeFrom_length (name ++ [';']) rest
    rw [List.length_append, List.append_assoc] at hskip
    simp only [decodeFrom, if_true, hcut]
    exact congrArg _ hskip
  other := by
    intro c rest hother
    have hnone : (if c = '&' then referenceName? rest else none) = none := by
      split
      · rename_i hamp
        rw [Option.eq_none_iff_forall_ne_some]
        intro name hname
        obtain ⟨hreference, after, hcut⟩ := referenceName?_eq_some.mp hname
        exact hother hamp name after hreference hcut
      · rfl
    simp only [decodeFrom, hnone]

/-- The table of the references that escaping writes. It takes all others as they stand. -/
def ofWritten : EntityTable where
  value name :=
    if name = ['a', 'm', 'p'] then ['&'] else if name = ['l', 't'] then ['<']
    else if name = ['g', 't'] then ['>'] else if name = ['q', 'u', 'o', 't'] then ['"']
    else '&' :: (name ++ [';'])
  amp := rfl
  lt := rfl
  gt := rfl
  quot := rfl

end EntityTable

/-- Escaping keeps the meaning of a text: any reader of references takes the escaped text for what
it takes the text itself for. -/
theorem read_escapeOnce {table : EntityTable} {read : List Char → List Char}
    (h : table.Reader read) (text : String) :
    read (escapeOnce text).toList = read text.toList := by
  rw [escapeOnce, String.toList_ofList]
  exact h.read_escapeChars text.toList

/-- Bare ampersands, an unfinished reference, one after it and one that the table leaves as it is:
all are read alike before and after escaping. -/
theorem read_escapeOnce_overlaps : ∃ (table : EntityTable) (read : List Char → List Char),
    table.Reader read ∧ escapeOnce "&&am&amp;#12&lt;<&#39;" = "&amp;&amp;am&amp;#12&lt;&lt;&#39;" ∧
    read (escapeOnce "&&am&amp;#12&lt;<&#39;").toList = "&&am&#12<<&#39;".toList := by
  have hreader := EntityTable.ofWritten.reader_decodeFrom
  refine ⟨.ofWritten, EntityTable.ofWritten.decodeFrom 0, hreader, by decide, ?_⟩
  rw [read_escapeOnce hreader]
  decide

end HtmlDoc.Text
