import HtmlDoc.Fragment
import HtmlDoc.Proofs.Text.ScriptReading
import Mathlib.Data.List.Chain

/-!
Script literals in a script element. The element ends where a closing tag starts, with `</`. Main
statement: the body of a literal holds no `</`, whatever the text and however often it is written as
a literal of a literal, so a script holds one only beside its literals.
-/

namespace HtmlDoc

namespace Text

/-- Somewhere in the text a slash comes right behind an opening angle bracket. -/
def HoldsClosing (cs : List Char) : Prop :=
  ∃ before after, cs = before ++ '<' :: '/' :: after

variable {c : Char} {cs left right : List Char}

/-- Whether a text holds none is a matter of each two neighbours. -/
theorem not_holdsClosing_iff :
    ¬ HoldsClosing cs ↔ cs.IsChain fun c next => ¬ (c = '<' ∧ next = '/') := by
  rw [List.isChain_iff_forall_rel_of_append_cons_cons]
  constructor
  · rintro hnone _ _ before after hcut ⟨rfl, rfl⟩
    exact hnone ⟨before, after, hcut⟩
  · rintro hchain ⟨before, after, hcut⟩
    exact hchain hcut ⟨rfl, rfl⟩

theorem not_holdsClosing_nil : ¬ HoldsClosing [] :=
  not_holdsClosing_iff.mpr .nil

theorem not_holdsClosing_cons :
    ¬ HoldsClosing (c :: cs) ↔ (c = '<' → cs.head? ≠ some '/') ∧ ¬ HoldsClosing cs := by
  rw [not_holdsClosing_iff, not_holdsClosing_iff, List.isChain_cons]
  refine and_congr_left fun _ => ?_
  constructor
  · intro hnext hc hslash
    exact hnext '/' hslash ⟨hc, rfl⟩
  · rintro hslash next hnext ⟨hc, rfl⟩
    exact hslash hc hnext

/-- A character that is neither of the two keeps apart what stands before and behind it. -/
theorem holdsClosing_around (hangle : c ≠ '<') (hslash : c ≠ '/') :
    HoldsClosing (left ++ c :: right) ↔ HoldsClosing left ∨ HoldsClosing right := by
  rw [← not_iff_not, not_or, not_holdsClosing_iff, List.isChain_append, ← not_holdsClosing_iff,
    ← not_holdsClosing_iff, not_holdsClosing_cons]
  constructor
  · rintro ⟨hleft, ⟨-, hright⟩, -⟩
    exact ⟨hleft, hright⟩
  · rintro ⟨hleft, hright⟩
    refine ⟨hleft, ⟨fun hc => absurd hc hangle, hright⟩, ?_⟩
    rintro _ _ next hnext ⟨-, rfl⟩
    cases hnext
    exact hslash rfl

/-- What is written for a text starts with a slash only if the text does. -/
theorem head?_scriptChars (h : (scriptChars cs).head? = some '/') : cs.head? = some '/' := by
  revert h
  fun_cases scriptChars cs with
  | case11 c cs => exact id
  | _ => exact nofun

theorem not_holdsClosing_scriptChars (cs : List Char) : ¬ HoldsClosing (scriptChars cs) := by
  -- Of what is written for one character only a bracket by itself ends in a bracket, and the text
  -- behind it does not start with a slash then.
  fun_induction scriptChars cs with
  | case1 => exact not_holdsClosing_nil
  | case11 c cs _ hpair _ _ _ _ _ _ _ ih =>
    refine not_holdsClosing_cons.mpr ⟨?_, ih⟩
    intro hangle hslash
    obtain ⟨rest, hrest⟩ := List.head?_eq_some_iff.mp (head?_scriptChars hslash)
    exact hpair rest hangle hrest
  | _ => simpa [not_holdsClosing_cons]

theorem not_holdsClosing_literal (text : String) : ¬ HoldsClosing (scriptLiteral text).toList := by
  rw [scriptLiteral, String.toList_ofList]
  exact not_holdsClosing_scriptChars text.toList

/-- Script literals do not close the script element they stand in. There is no `</` in the body that
is written for a text, nor in what comes of a fragment, trusted or not, that is written as a literal
once or several times over. So with a literal between quotes of either kind, a script holds one
exactly if there is one in what stands before the literal or in what stands behind it. -/
theorem not_holdsClosing_scriptLiteral :
    (∀ text : String, ¬ HoldsClosing (scriptLiteral? (some text)).toList) ∧
    (∀ (fragment : Fragment) (times : Nat),
      ¬ HoldsClosing (Fragment.scriptLiteral^[times + 1] fragment).text.toList) ∧
    ∀ (text : String) (quote : Quote) (before after : List Char),
      HoldsClosing
          (before ++ quote.char :: ((scriptLiteral? (some text)).toList ++ quote.char :: after)) ↔
        HoldsClosing before ∨ HoldsClosing after := by
  refine ⟨not_holdsClosing_literal, ?again, ?quoted⟩
  case again =>
    intro fragment times
    -- The last writing decides, whatever the ones before it have made of the text.
    rw [Function.iterate_succ_apply']
    exact not_holdsClosing_literal _
  case quoted =>
    intro text quote before after
    have hangle : quote.char ≠ '<' := by cases quote <;> decide
    have hslash : quote.char ≠ '/' := by cases quote <;> decide
    have hbody : ¬ HoldsClosing (scriptLiteral? (some text)).toList :=
      not_holdsClosing_literal text
    rw [holdsClosing_around hangle hslash, holdsClosing_around hangle hslash]
    simp only [hbody, false_or]

end Text

end HtmlDoc
