import Mathlib.Computability.Language
import Mathlib.Order.ConditionallyCompleteLattice.Basic
import PatternAutomata.Dfa.Basic
import PatternAutomata.Pattern.Basic
import PatternAutomata.Pattern.Shape

/-!
# The words of a pattern

The language of a pattern is defined by recursion on the tree, from the operations
on languages and without automata. It depends on the alphabet, which `.` ranges
over, and on the languages that names stand for.

A range of numerals stands for all of its numerals (`Decimal.language`), whatever its
width. The automaton for it takes the width as a word of 32 bits where it is an exponent
and may accept fewer of them (`Decimal.computed`). So the recursion is over the meaning of
such ranges, too.

## Main definitions

* `Dfa.language`: the words that an automaton accepts.
* `Decimal.language`, `Decimal.computed`: the numerals for a range of numbers, and those of
  them that its automaton accepts.
* `Pattern.language`: the words that a pattern stands for.
* `Pattern.languageOf`: the same, for any meaning of the ranges of numerals.
-/

namespace PatternAutomata

open scoped Computability

/-- The words that an automaton accepts. -/
def Dfa.language (d : Dfa) : Language Char := {w | d.accepts w = true}

/-- The numerals for the numbers between two bounds, in either order: of any length
for `width = 0`, and otherwise of exactly `width` digits, or as many as the greater
bound needs. -/
def Decimal.language (a b width : Nat) : Language Char :=
  {w | w ≠ [] ∧ (∀ c ∈ w, CharClass.isDigit c = true) ∧
    min a b ≤ Decimal.read w ∧ Decimal.read w ≤ max a b ∧
    (width ≠ 0 → w.length = max width (Decimal.length (max a b)))}

/-- The numerals among these whose numbers are not beyond the greatest one of their width.
The zeros in front of a numeral of any length do not count. -/
def Decimal.computed (a b width : Nat) : Language Char :=
  {w | w ∈ Decimal.language a b width ∧ Decimal.read w ≤
    Decimal.greatestOfWidth (if width = 0 then Decimal.length (Decimal.read w) else w.length)}

/-- The words of one character of a set. -/
def IntervalSet.language (s : IntervalSet) : Language Char := {w | ∃ c ∈ s, w = [c]}

/-- The words of a pattern, for a meaning of the ranges of numerals, an alphabet and the
languages of names. -/
def Pattern.languageOf (ranges : Nat → Nat → Nat → Language Char)
    (alphabet : Option Alphabet) (named : String → Language Char) : Pattern → Language Char
  | union a b => languageOf ranges alphabet named a + languageOf ranges alphabet named b
  | concat a b => languageOf ranges alphabet named a * languageOf ranges alphabet named b
  | inter a b => languageOf ranges alphabet named a ⊓ languageOf ranges alphabet named b
  | optional a => 1 + languageOf ranges alphabet named a
  | star a => (languageOf ranges alphabet named a)∗
  | atLeast min a =>
    languageOf ranges alphabet named a ^ min * (languageOf ranges alphabet named a)∗
  | between min max a =>
    {w | ∃ k, min ≤ k ∧ k ≤ max ∧ w ∈ languageOf ranges alphabet named a ^ k}
  | complement a => (languageOf ranges alphabet named a)ᶜ
  | char c => {[c]}
  | range lo hi => {w | ∃ c, lo ≤ c ∧ c ≤ hi ∧ w = [c]}
  | anyChar => (domain alphabet).language
  | anyWord => ⊤
  | empty => 0
  | literal text => {text}
  | reference name => named name
  | numerals lo hi width => ranges lo hi width

/-- The words of a pattern, for an alphabet and the languages of names. -/
def Pattern.language (alphabet : Option Alphabet) (named : String → Language Char)
    (p : Pattern) : Language Char :=
  p.languageOf Decimal.language alphabet named

/-- Ranges of numerals matter only as far as they occur. -/
theorem Pattern.languageOf_congr {ranges ranges' : Nat → Nat → Nat → Language Char}
    {alphabet : Option Alphabet} {named : String → Language Char} {p : Pattern}
    {holds : Pattern → Prop} (hp : p.Every holds)
    (h : ∀ lo hi width, holds (.numerals lo hi width) →
      ranges lo hi width = ranges' lo hi width) :
    p.languageOf ranges alphabet named = p.languageOf ranges' alphabet named := by
  induction p with
  | union a b iha ihb => rw [languageOf, languageOf, iha hp.2.1, ihb hp.2.2]
  | concat a b iha ihb => rw [languageOf, languageOf, iha hp.2.1, ihb hp.2.2]
  | inter a b iha ihb => rw [languageOf, languageOf, iha hp.2.1, ihb hp.2.2]
  | optional a ih => rw [languageOf, languageOf, ih hp.2]
  | star a ih => rw [languageOf, languageOf, ih hp.2]
  | atLeast min a ih => rw [languageOf, languageOf, ih hp.2]
  | between min max a ih => rw [languageOf, languageOf, ih hp.2]
  | complement a ih => rw [languageOf, languageOf, ih hp.2]
  | numerals lo hi width => exact h lo hi width hp
  | char | range | anyChar | anyWord | empty | literal | reference => rfl

end PatternAutomata
