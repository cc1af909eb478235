import PatternAutomata.Checked.Tables

/-!
# Adding a transition in place

An automaton that is kept in tables is changed where it is. A call that fails half-way
leaves behind what it has changed so far, so the result of a call is not all there is to
say about it: an `Editing` comes with the state that it leaves, whether it fails or not.

A new transition is put at its place in the row of its state. Before that, the entries on
either side of the place are taken out if they can be joined with it. Taking out an entry
below the place moves the place, and every index is checked when it is used.

## Main definitions

* `Editing.outcome`: how a computation ends and what it leaves behind.
* `Row.search?`: the state that a character leads to, by a search in the row.
* `Tables.addTransition`: adds a transition to the row of a state.
-/

namespace PatternAutomata

open PatternAutomata.Interval

/-- A computation that changes something in place and may fail. -/
abbrev Editing (σ α : Type) := ExceptT Fault (StateM σ) α

namespace Editing

variable {σ α : Type}

/-- How a computation ends, and what it leaves behind. -/
def outcome (x : Editing σ α) (before : σ) : Except Fault α × σ := x.run.run before

/-- A call that changes nothing. -/
def ofChecked (x : Checked α) : Editing σ α := ExceptT.mk (pure x)

end Editing

namespace Row

/-- The state that a character leads to: the first entry that does not end below the
character is the only one that may hold it. -/
def search? (row : Row) (c : Char) : Option Nat :=
  let place := partitionPoint (fun t => decide (t.on.hi < c)) row
  (row[place]?.filter fun t => decide (t.on.lo ≤ c)).map (·.target)

/-! ## Single entries -/

/-- The entry at an index. -/
def look (k : Nat) : Editing Row Transition := do
  Editing.ofChecked (Checked.entry (← get) k)

/-- Takes out the entry at an index. -/
def takeOut (k : Nat) : Editing Row Unit := do
  let row ← get
  if k < row.length then set (row.eraseIdx k) else throw .outOfRange

/-- Puts an entry at an index, before the one that is there. -/
def putIn (k : Nat) (t : Transition) : Editing Row Unit := do
  let row ← get
  if k ≤ row.length then set (row.insertIdx k t) else throw .outOfRange

/-! ## A new entry -/

/-- Refuses an interval that reaches the entry at its place. -/
def leaveRoom (on : Interval) (place : Nat) : Editing Row Unit := do
  if place < (← get).length then do
    let next ← look place
    if on.hi < next.on.lo then pure () else throw (.misuse .overlappingTransitions)
  else pure ()

/-- Takes out the entry at the place if it can be joined with a transition. What is left
to be added is the transition on both intervals. -/
def joinNext (on : Interval) (target place : Nat) : Editing Row Interval := do
  if place < (← get).length then do
    let next ← look place
    if next.target = target ∧ on.Touches next.on then do
      takeOut place
      Editing.ofChecked (Checked.ofBounds on.lo next.on.hi)
    else pure on
  else pure on

/-- Takes out the entry before the place if it can be joined with a transition. What is
left to be added is the transition on both intervals, one place further down. -/
def joinPrevious (on : Interval) (target place : Nat) : Editing Row (Interval × Nat) := do
  if place = 0 then pure (on, place)
  else do
    let previous ← look (place - 1)
    if previous.target = target ∧ on.Touches previous.on then do
      takeOut (place - 1)
      let both ← Editing.ofChecked (Checked.ofBounds previous.on.lo on.hi)
      pure (both, place - 1)
    else pure (on, place)

/-- Adds a transition at its place, joined with its neighbours. -/
def add (on : Interval) (target : Nat) : Editing Row Unit := do
  let place := partitionPoint (fun t => decide (t.on.hi < on.lo)) (← get)
  leaveRoom on place
  let upper ← joinNext on target place
  let (whole, place) ← joinPrevious upper target place
  putIn place ⟨whole, target⟩

end Row

namespace Tables

/-- A change of the row of a state. -/
def inRow {α : Type} (s : Nat) (x : Editing Row α) : Editing Tables α := do
  let row ← Editing.ofChecked ((← get).rowAt s)
  let (result, after) := x.outcome row
  modify fun t => { t with rows := t.rows.set s after }
  Editing.ofChecked result

/-- Adds a transition. A state has at most one transition per character. -/
def addTransition (s : Nat) (on : Interval) (target : Nat) : Editing Tables Unit :=
  inRow s (Row.add on target)

end Tables

end PatternAutomata
