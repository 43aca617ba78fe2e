import HtmlDoc.Text.ScriptLiteral

/-!
Script literals read back. A reader of script takes the body of a literal up to the first quote that
stands for itself, and resolves the escape sequences on the way. Main statement: the body that is
written for a text is read to its end, between quotes of either kind, and stands for the text with
its line breaks made one kind.
-/

namespace HtmlDoc.Text

/-- The text with a single line feed for each carriage return, together with the line feed after it
if there is one. -/
def unifyBreaks : List Char → List Char
  | [] => []
  | '\r' :: '\n' :: cs => '\n' :: unifyBreaks cs
  | '\r' :: cs => '\n' :: unifyBreaks cs
  | c :: cs => c :: unifyBreaks cs

/-- The quotes that a literal can stand between. -/
inductive Quote where
  | single
  | double

def Quote.char : Quote → Char
  | .single => '\''
  | .double => '"'

def isQuote (c : Char) : Bool := c == '\'' || c == '"'

/-- Whether `c` may not stand for itself in the body of a literal, besides quotes. -/
def isForbidden (c : Char) : Bool :=
  c == '\\' || c == '\n' || c == '\r' || c == '\u2028' || c == '\u2029'

def hexDigit? (c : Char) : Option Nat :=
  if '0' ≤ c ∧ c ≤ '9' then some (c.toNat - '0'.toNat)
  else if 'a' ≤ c ∧ c ≤ 'f' then some (c.toNat - 'a'.toNat + 10)
  else if 'A' ≤ c ∧ c ≤ 'F' then some (c.toNat - 'A'.toNat + 10)
  else none

/-- The character with the code point that four hexadecimal digits give. -/
def hexChar? (a b c d : Char) : Option Char := do
  let code := (((← hexDigit? a) * 16 + (← hexDigit? b)) * 16 + (← hexDigit? c)) * 16 +
    (← hexDigit? d)
  if code.isValidChar then some (Char.ofNat code) else none

/-- What a backslash and `c` stand for. -/
def escaped? (c : Char) : Option Char :=
  if c = 'n' then some '\n'
  else if c = '\\' ∨ c = '/' ∨ c = '\'' ∨ c = '"' then some c
  else none

/-- Puts a character in front of what has been read. -/
def prepend (char : Option Char) (read : Option (List Char × List Char)) :
    Option (List Char × List Char) := do
  let (value, rest) ← read
  return ((← char) :: value, rest)

/-- Reads the body of a literal up to the first quote, of either kind, that is not escaped, or to
the end of the text. Answers what the body stands for and what is left. -/
def readBody : List Char → Option (List Char × List Char)
  | [] => some ([], [])
  | '\\' :: 'u' :: a :: b :: c :: d :: cs => prepend (hexChar? a b c d) (readBody cs)
  | '\\' :: c :: cs => prepend (escaped? c) (readBody cs)
  | c :: cs =>
    if isQuote c then some ([], c :: cs)
    else if isForbidden c then none
    else prepend (some c) (readBody cs)

/-- Reads a literal between quotes of one kind, and answers what it stands for and what follows. -/
def readLiteral (quote : Quote) : List Char → Option (List Char × List Char)
  | [] => none
  | c :: cs =>
    if c = quote.char then
      match readBody cs with
      | some (value, c :: rest) => if c = quote.char then some (value, rest) else none
      | _ => none
    else none

variable {cs value rest : List Char}

theorem readBody_escape {c d : Char} (hd : escaped? c = some d)
    (h : readBody cs = some (value, rest)) :
    readBody ('\\' :: c :: cs) = some (d :: value, rest) := by
  have hu : c ≠ 'u' := by
    rintro rfl
    cases hd
  rw [readBody, hd, h]
  · rfl
  · intro _ _ _ _ _ hc
    exact absurd hc hu

theorem readBody_code {a b c d char : Char} (hc : hexChar? a b c d = some char)
    (h : readBody cs = some (value, rest)) :
    readBody ('\\' :: 'u' :: a :: b :: c :: d :: cs) = some (char :: value, rest) := by
  rw [readBody, hc, h]
  rfl

theorem readBody_plain {c : Char} (hq : isQuote c = false) (hf : isForbidden c = false)
    (h : readBody cs = some (value, rest)) : readBody (c :: cs) = some (c :: value, rest) := by
  have hslash : c ≠ '\\' := by
    rintro rfl
    cases hf
  rw [readBody, hq, hf, h]
  · rfl
  · intro _ _ _ _ _ hc
    exact absurd hc hslash
  · intro _ _ hc
    exact absurd hc hslash

/-- Nothing is read where the text ends, nor at a quote. -/
theorem readBody_end (h : ∀ c ∈ rest.head?, isQuote c = true) : readBody rest = some ([], rest) := by
  cases rest with
  | nil => rfl
  | cons c cs =>
    have hq : isQuote c = true := h c rfl
    have hslash : c ≠ '\\' := by
      rintro rfl
      cases hq
    rw [readBody, if_pos hq]
    · intro _ _ _ _ _ hc
      exact absurd hc hslash
    · intro _ _ hc
      exact absurd hc hslash

/-- The body that is written for a text is read back whole, whatever stands behind it: nothing, or
the quote that closes the literal. -/
theorem readBody_scriptChars (cs : List Char) (h : ∀ c ∈ rest.head?, isQuote c = true) :
    readBody (scriptChars cs ++ rest) = some (unifyBreaks cs, rest) := by
  -- After each piece that is written the reader stands before what is written for the next.
  fun_induction scriptChars cs with
  | case1 => exact readBody_end h
  | case2 cs ih => exact readBody_escape rfl ih
  | case3 cs ih => exact readBody_plain rfl rfl (readBody_escape rfl ih)
  | case4 cs ih => exact readBody_escape rfl ih
  | case5 cs hlf ih => 
    rw [unifyBreaks]
    · exact readBody_escape rfl ih
    · exact hlf
  | case6 cs ih => exact readBody_escape rfl ih
  | case7 cs ih => exact readBody_code rfl ih
  | case8 cs ih => exact readBody_code rfl ih
  | case9 cs ih => exact readBody_escape rfl ih
  | case10 cs ih => exact readBody_escape rfl ih
  | case11 c cs hslash _ _ hcr hlf hline hparagraph hdouble hsingle ih =>
    have hq : isQuote c = false := by
      rw [isQuote, beq_false_of_ne hsingle, beq_false_of_ne hdouble]
      rfl
    have hf : isForbidden c = false := by
      rw [isForbidden, beq_false_of_ne hslash, beq_false_of_ne hlf, beq_false_of_ne hcr,
        beq_false_of_ne hline, beq_false_of_ne hparagraph]
      rfl
    rw [unifyBreaks]
    · exact readBody_plain hq hf ih
    · intro _ hc
      exact absurd hc hcr
    · exact hcr

/-- Written as the body of a script literal and read back, a text comes out as it was, with each of
its line breaks as one line feed. The body is read to its end, and between quotes of either kind the
literal ends at the quote behind it. -/
theorem readLiteral_scriptLiteral (text : String) :
    readBody (scriptLiteral? (some text)).toList = some (unifyBreaks text.toList, []) ∧
    ∀ (quote : Quote) (rest : List Char),
      readLiteral quote
        (quote.char :: ((scriptLiteral? (some text)).toList ++ quote.char :: rest)) =
          some (unifyBreaks text.toList, rest) := by
  have hbody : (scriptLiteral? (some text)).toList = scriptChars text.toList :=
    String.toList_ofList
  rw [hbody]
  constructor
  · have hread : readBody (scriptChars text.toList ++ []) = some (unifyBreaks text.toList, []) :=
      readBody_scriptChars text.toList nofun
    rw [List.append_nil] at hread
    exact hread
  · intro quote rest
    have hq : isQuote quote.char = true := by cases quote <;> rfl
    have hread : readBody (scriptChars text.toList ++ quote.char :: rest) =
        some (unifyBreaks text.toList, quote.char :: rest) := by
      apply readBody_scriptChars
      intro c hc
      cases hc
      exact hq
    rw [readLiteral, if_pos rfl, hread]
    exact if_pos rfl

end HtmlDoc.Text
