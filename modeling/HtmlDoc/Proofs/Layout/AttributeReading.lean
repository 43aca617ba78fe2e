import HtmlDoc.Proofs.Layout.Composition
import HtmlDoc.Proofs.Text.Quiet

/-!
Attributes read back. A reader goes through the attributes of an opening tag from left to right:
after a space comes a key, which ends at an equals sign, at a space or with the text, and after an
equals sign comes a value in double quotes. Main statement: of written attributes it reads all that
are not omitted, in their order, each with its text if one is written.
-/

namespace HtmlDoc

/-- Where a reader of attributes stands: between two of them, in a key, behind the equals sign of a
key, in its value, or where no attribute goes on. -/
inductive AttrPlace where
  | between
  | inKey (seen : List Char)
  | behindEquals (key : String)
  | inValue (key : String) (seen : List Char)
  | lost
deriving DecidableEq

/-- A reader of attributes: the keys it has read, with their values if they have any, and where it
stands. -/
structure AttrReader where
  read : List (String × Option String) := []
  place : AttrPlace := .between
deriving DecidableEq

namespace AttrReader

/-- Reads a character. -/
def step : AttrReader → Char → AttrReader
  | ⟨read, .between⟩, c => if c = ' ' then ⟨read, .inKey []⟩ else ⟨read, .lost⟩
  | ⟨read, .inKey seen⟩, c =>
    if c = '=' then ⟨read, .behindEquals (String.ofList seen)⟩
    else if c = ' ' then ⟨read ++ [(String.ofList seen, none)], .inKey []⟩
    else ⟨read, .inKey (seen ++ [c])⟩
  | ⟨read, .behindEquals key⟩, c =>
    if c = '"' then ⟨read, .inValue key []⟩ else ⟨read, .lost⟩
  | ⟨read, .inValue key seen⟩, c =>
    if c = '"' then ⟨read ++ [(key, some (String.ofList seen))], .between⟩
    else ⟨read, .inValue key (seen ++ [c])⟩
  | ⟨read, .lost⟩, _ => ⟨read, .lost⟩

/-- Reads on. -/
def run (reader : AttrReader) (text : String) : AttrReader := text.toList.foldl step reader

/-- What has been read if the text ends here, which it may between attributes and behind a key. -/
def finish? : AttrReader → Option (List (String × Option String))
  | ⟨read, .between⟩ => some read
  | ⟨read, .inKey seen⟩ => some (read ++ [(String.ofList seen, none)])
  | _ => none

/-- Reads a whole text. -/
def readAll? (text : String) : Option (List (String × Option String)) := (run {} text).finish?

variable {read : List (String × Option String)}

theorem run_append (reader : AttrReader) (left right : String) :
    reader.run (left ++ right) = (reader.run left).run right := by
  simp only [run, String.toList_append, List.foldl_append]

/-- A reader that does nothing but collect what it sees has all of it in the end. -/
theorem foldl_collect {σ : Type} {step : σ → Char → σ} {place : List Char → σ} {cs : List Char}
    (h : ∀ c ∈ cs, ∀ seen, step (place seen) c = place (seen ++ [c])) (seen : List Char) :
    cs.foldl step (place seen) = place (seen ++ cs) := by
  induction cs generalizing seen with
  | nil => rw [List.foldl_nil, List.append_nil]
  | cons c cs ih =>
    obtain ⟨hc, hcs⟩ := List.forall_mem_cons.mp h
    rw [List.foldl_cons, hc, ih hcs, List.append_assoc, List.singleton_append]

theorem run_inKey {text : String} (h : ∀ c ∈ text.toList, c ≠ '=' ∧ c ≠ ' ') :
    run ⟨read, .inKey []⟩ text = ⟨read, .inKey text.toList⟩ := by
  have hstep : ∀ c ∈ text.toList, ∀ seen,
      step ⟨read, .inKey seen⟩ c = ⟨read, .inKey (seen ++ [c])⟩ := by
    intro c hc seen
    rw [step, if_neg (h c hc).1, if_neg (h c hc).2]
  exact foldl_collect hstep []

theorem run_inValue {text : String} (h : '"' ∉ text.toList) (key : String) :
    run ⟨read, .inValue key []⟩ text = ⟨read, .inValue key text.toList⟩ := by
  have hstep : ∀ c ∈ text.toList, ∀ seen,
      step ⟨read, .inValue key seen⟩ c = ⟨read, .inValue key (seen ++ [c])⟩ := by
    intro c hc seen
    have hopen : c ≠ '"' := by
      rintro rfl
      exact h hc
    rw [step, if_neg hopen]
  exact foldl_collect hstep []

/-- Wherever the text could have ended another key can follow, and ends the one before it. -/
theorem run_key {reader : AttrReader} (hreader : reader.finish? = some read) {key : String}
    (h : ∀ c ∈ key.toList, c ≠ '=' ∧ c ≠ ' ') :
    reader.run (" " ++ key) = ⟨read, .inKey key.toList⟩ := by
  -- The space ends a key that has no value, and behind a value it ends nothing.
  have hspace : reader.run " " = ⟨read, .inKey []⟩ := by
    obtain ⟨earlier, place⟩ := reader
    cases place with
    | between =>
      cases hreader
      rfl
    | inKey seen =>
      cases hreader
      rfl
    | behindEquals key => cases hreader
    | inValue key seen => cases hreader
    | lost => cases hreader
  rw [run_append, hspace, run_inKey h]

/-- A value without double quotes is read whole, and belongs to the key before it. -/
theorem run_value {value : String} (h : '"' ∉ value.toList) (key : String) :
    run ⟨read, .inKey key.toList⟩ ("=\"" ++ value ++ "\"") =
      ⟨read ++ [(key, some value)], .between⟩ := by
  have hopen : run ⟨read, .inKey key.toList⟩ "=\"" = ⟨read, .inValue key []⟩ := by
    change (⟨read, .inValue (String.ofList key.toList) []⟩ : AttrReader) = _
    rw [String.ofList_toList]
  have hclose : run ⟨read, .inValue key value.toList⟩ "\"" =
      ⟨read ++ [(key, some value)], .between⟩ := by
    change (⟨read ++ [(key, some (String.ofList value.toList))], .between⟩ : AttrReader) = _
    rw [String.ofList_toList]
  rw [run_append, run_append, hopen, run_inValue h, hclose]

end AttrReader

/-- What is to be read of an attribute: nothing if it is omitted, the key alone if the value is
blank and the key is none of the two whose values are always quoted, and else the key with the text.
The text is markup as it stands or plain text escaped once; a flag has an empty one. -/
def AttrValue.readAs (key : String) : AttrValue → Option (String × Option String)
  | .nil | .flag false => none
  | .flag true => some (key, if key = "value" ∨ key = "alt" then some "" else none)
  | .text fragment =>
    if Text.isBlank fragment.text ∧ ¬(key = "value" ∨ key = "alt") then some (key, none)
    else some (key, some
      (if fragment.trusted then fragment.text else Text.escapeOnce fragment.text))

/-- If the value is a text that is taken for markup, no double quote is in it. -/
def AttrValue.QuoteFree : AttrValue → Prop
  | .text fragment => fragment.trusted = true → '"' ∉ fragment.text.toList
  | .nil | .flag _ => True

instance : (value : AttrValue) → Decidable value.QuoteFree
  | .text fragment =>
    inferInstanceAs (Decidable (fragment.trusted = true → '"' ∉ fragment.text.toList))
  | .nil | .flag _ => inferInstanceAs (Decidable True)

theorem Name.isAlwaysQuoted_iff (key : String) :
    isAlwaysQuoted key = true ↔ key = "value" ∨ key = "alt" := by
  simp [isAlwaysQuoted, alwaysQuotedKeys]

namespace AttrValue

theorem readAs_of_omitted {value : AttrValue} (h : value.isOmitted = true) (key : String) :
    value.readAs key = none := by
  cases value with
  | nil => rfl
  | text fragment => cases h
  | flag set =>
    cases set with
    | false => rfl
    | true => cases h

theorem readAs_of_bare {value : AttrValue} (h : value.isBlank = true) {key : String}
    (hkey : Name.isAlwaysQuoted key = false) : value.readAs key = some (key, none) := by
  have hfree : ¬(key = "value" ∨ key = "alt") := by
    rw [← Name.isAlwaysQuoted_iff, hkey]
    decide
  cases value with
  | nil => cases h
  | text fragment => exact if_pos ⟨h, hfree⟩
  | flag set =>
    cases set with
    | false => cases h
    | true => rw [readAs, if_neg hfree]

theorem readAs_of_quoted {value : AttrValue} (h : value.isOmitted = false) {key : String}
    (hkey : value.isBlank = true → Name.isAlwaysQuoted key = true) :
    value.readAs key = some (key, some value.quoted) := by
  cases value with
  | nil => cases h
  | text fragment =>
    refine if_neg ?_
    rintro ⟨hblank, hfree⟩
    exact hfree ((Name.isAlwaysQuoted_iff key).mp (hkey hblank))
  | flag set =>
    cases set with
    | false => cases h
    | true =>
      have hkept := (Name.isAlwaysQuoted_iff key).mp (hkey rfl)
      rw [readAs, if_pos hkept]
      rfl

/-- Nothing between the quotes of a value closes them. -/
theorem QuoteFree.not_mem_quoted {value : AttrValue} (h : value.QuoteFree) :
    '"' ∉ value.quoted.toList := by
  cases value with
  | nil => exact List.not_mem_nil
  | flag set => exact List.not_mem_nil
  | text fragment =>
    rw [quoted, Fragment.asMarkup]
    split
    · rename_i htrusted
      exact h htrusted
    · rw [Text.escapeOnce, String.toList_ofList]
      exact fun hmem => (Text.ne_of_mem_escapeChars hmem).2.2 rfl

end AttrValue

namespace AttrReader

variable {read : List (String × Option String)}

theorem key_chars {key : String} (h : Name.isKey key = true) :
    ∀ c ∈ key.toList, c ≠ '=' ∧ c ≠ ' ' := by
  intro c hc
  have hpart := Name.isKeyPart_of_isKey h c hc
  constructor
  · rintro rfl
    exact absurd hpart (by decide)
  · rintro rfl
    exact absurd hpart (by decide)

/-- What is written for an attribute is read to its end, and adds to what has been read what is to
be read of the attribute. -/
theorem finish?_written {reader : AttrReader} (hreader : reader.finish? = some read) {key : String}
    (hkey : Name.isKey key = true) {value : AttrValue} (hvalue : value.QuoteFree) :
    (reader.run (value.written key)).finish? = some (read ++ (value.readAs key).toList) := by
  have hrun := run_key hreader (key_chars hkey)
  -- The cases are those of the writing: nothing, the key alone, the key with its value.
  unfold AttrValue.written
  split
  · rename_i homitted
    rw [AttrValue.readAs_of_omitted homitted, Option.toList_none, List.append_nil]
    exact hreader
  rename_i homitted
  rw [Bool.not_eq_true] at homitted
  split
  · rename_i hbare
    rw [Bool.and_eq_true, Bool.not_eq_true'] at hbare
    rw [hrun, AttrValue.readAs_of_bare hbare.1 hbare.2, finish?, String.ofList_toList]
    rfl
  · rename_i hquoted
    have hkept : value.isBlank = true → Name.isAlwaysQuoted key = true := by
      intro hblank
      rw [hblank, Bool.true_and, Bool.not_eq_true, Bool.not_eq_false'] at hquoted
      exact hquoted
    have hcut : " " ++ key ++ "=\"" ++ value.quoted ++ "\"" =
        (" " ++ key) ++ ("=\"" ++ value.quoted ++ "\"") := by
      simp only [String.append_assoc]
    rw [hcut, run_append, hrun, run_value hvalue.not_mem_quoted, finish?,
      AttrValue.readAs_of_quoted homitted hkept, Option.toList_some]

/-- Attributes that are written one after the other are read one after the other. -/
theorem finish?_join {reader : AttrReader} (hreader : reader.finish? = some read)
    {entries : Entries} (hkeys : ∀ entry ∈ entries, Name.isKey entry.1 = true)
    (hvalues : ∀ entry ∈ entries, entry.2.QuoteFree) :
    (reader.run (String.join (entries.map fun entry => entry.2.written entry.1))).finish? =
      some (read ++ entries.filterMap fun entry => entry.2.readAs entry.1) := by
  -- What holds before each attribute is that the text could end there.
  induction entries generalizing reader read with
  | nil =>
    rw [List.filterMap_nil, List.append_nil]
    exact hreader
  | cons entry entries ih =>
    obtain ⟨hkey, hkeys⟩ := List.forall_mem_cons.mp hkeys
    obtain ⟨hvalue, hvalues⟩ := List.forall_mem_cons.mp hvalues
    have hfirst := finish?_written hreader hkey hvalue
    have hkept : (entry.2.readAs entry.1).toList ++
        entries.filterMap (fun entry => entry.2.readAs entry.1) =
          (entry :: entries).filterMap fun entry => entry.2.readAs entry.1 := by
      rw [List.filterMap_cons]
      cases entry.2.readAs entry.1 <;> rfl
    rw [List.map_cons, String.join_cons, run_append, ih hfirst hkeys hvalues, List.append_assoc,
      hkept]

end AttrReader

/-- Attributes survive being written, behind whatever has been written before: read back they are
all there that are not omitted, in their order and with their texts, and nothing is left over. Plain
texts are free; trusted ones must not close their quotes. -/
theorem Attributes.readBack_appendAttrs {attrs : Attributes}
    (hkeys : ∀ key ∈ attrs.keys, Name.isKey key = true)
    (hvalues : ∀ entry ∈ attrs.entries, entry.2.QuoteFree) (before : String) :
    ∃ text, appendAttrs (.markup before) attrs = .markup (before ++ text) ∧
      AttrReader.readAll? text =
        some (attrs.entries.filterMap fun entry => entry.2.readAs entry.1) := by
  have hbefore : (Fragment.markup before).trusted = true := rfl
  have hentries : ∀ entry ∈ attrs.entries, Name.isKey entry.1 = true := by
    intro entry hmem
    exact hkeys entry.1 (List.mem_map.mpr ⟨entry, hmem, rfl⟩)
  have hstart : AttrReader.finish? {} = some [] := rfl
  refine ⟨attrs.written, appendAttrs_eq hbefore attrs, ?_⟩
  exact AttrReader.finish?_join hstart hentries hvalues

/-- All kinds of values in one tag: quotes, spaces and equals signs in plain and in trusted texts,
flags, blank texts, and values that are omitted. -/
theorem Attributes.readBack_appendAttrs_mixed :
    ∃ text, appendAttrs (.markup "<input") (.ofList [("title", .text (.plain "a=\"b\" c")),
        ("hidden", .flag false), ("alt", .flag true), ("checked", .flag true), ("lang", .nil),
        ("value", .text (.plain " ")), ("class", .text (.plain " ")),
        ("style", .text (.markup "x = 1 & y"))]) = .markup ("<input" ++ text) ∧
      AttrReader.readAll? text = some [("title", some "a=&quot;b&quot; c"), ("alt", some ""),
        ("checked", none), ("value", some " "), ("class", none), ("style", some "x = 1 & y")] := by
  exact Attributes.readBack_appendAttrs (by decide) (by decide) "<input"

end HtmlDoc
