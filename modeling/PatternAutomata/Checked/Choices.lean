import PatternAutomata.Checked.CodePoints
import PatternAutomata.Checked.Intervals
import PatternAutomata.Generator.Walk

/-!
# Choosing a step by words

The sums of widths along a row are words, and the transition with the character that is
wanted is found by halving. What is left of the number when the sum before the transition
is taken off is the place of the character in the interval.
-/

namespace PatternAutomata

/-- The transitions of a state, and for each the number of characters up to its end, as
words. -/
structure WordWeights where
  row : Row
  sums : List UInt64
deriving DecidableEq

namespace WordWeights

open Wordwise

/-- The interval of a transition, formed from its bounds. -/
def interval (t : Transition) : Wordwise Interval :=
  ofChecked (Checked.ofBounds t.on.lo t.on.hi)

/-- The sums of widths along a row, starting from a number. -/
def sumsFrom (before : UInt64) : Row → Wordwise (List UInt64)
  | [] => pure []
  | t :: row => do
    let sum ← add before (← extent (← interval t))
    return sum :: (← sumsFrom sum row)

/-- The weights of a row. -/
def ofRow (row : Row) : Wordwise WordWeights := return ⟨row, ← sumsFrom 0 row⟩

/-- The number of characters in all. -/
def total (w : WordWeights) : UInt64 := w.sums.getLastD 0

/-- The number of characters before the transition with an index. -/
def sumBefore (w : WordWeights) (k : Nat) : Wordwise UInt64 :=
  if k = 0 then pure 0 else ofChecked (Checked.entry w.sums (k - 1))

/-- The character with number `n` and the state it leads to. -/
def pick (w : WordWeights) (n : UInt64) : Wordwise (Char × Nat) := do
  let k ← ofChecked (Checked.bisect (fun sum => decide (sum ≤ n)) w.sums)
  let before ← w.sumBefore k
  let t ← ofChecked (Checked.entry w.row k)
  let on ← interval t
  let place ← sub n before
  match ← nthIn on place with
  | some c => return (c, t.target)
  | none => throw (.noSuchCharacter n)

end WordWeights

end PatternAutomata
