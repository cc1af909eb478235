import Mathlib.Data.Set.Basic
import PatternAutomata.Checked.Intervals

/-!
# Sets that are put together step by step

An `Edit` changes a set or puts another one in its place. What it does is given three
times: on the list of intervals (`edit`), on the list with every look-up checked
(`Checked.edit`), and on the set of characters that the list stands for (`Edit.members`).
The last knows of no intervals.
-/

namespace PatternAutomata

namespace IntervalSet

/-- An operation on a set of characters. -/
inductive Edit where
  /-- Goes on with the set without members. -/
  | clear
  | insert (i : Interval)
  | invert
  /-- Goes on with the set of some characters. -/
  | ofChars (cs : List Char)
  /-- Goes on with the union of some intervals. -/
  | ofIntervals (is : List Interval)

/-- The set after an operation. -/
def edit (s : IntervalSet) : Edit → IntervalSet
  | .clear => empty
  | .insert i => s.insert i
  | .invert => s.invert
  | .ofChars cs => ofChars cs
  | .ofIntervals is => ofIntervals is

/-- The set after some operations, beginning with the one without members. -/
def ofEdits (edits : List Edit) : IntervalSet := edits.foldl edit empty

/-- The members after an operation. -/
def Edit.members (before : Set Char) : Edit → Set Char
  | .clear => ∅
  | .insert i => {c | c ∈ i} ∪ before
  | .invert => beforeᶜ
  | .ofChars cs => {c | c ∈ cs}
  | .ofIntervals is => {c | ∃ i ∈ is, c ∈ i}

end IntervalSet

namespace Checked

/-- The set after an operation. -/
def editSet (s : IntervalSet) : IntervalSet.Edit → Checked IntervalSet
  | .clear => pure ∅
  | .insert i => insertSet s i
  | .invert => invert s
  | .ofChars cs => do ofIntervals (← cs.mapM singleton)
  | .ofIntervals is => ofIntervals is

end Checked

end PatternAutomata
