import Mathlib.Data.List.Chain
import PatternAutomata.Checked.Calls

/-!
# Automata as two tables

Laid out in memory, an automaton has one table that says which states accept and
another one that holds their rows. A call looks up a state in the table that it needs
and fails if that table is too short, so an automaton is only of use if the tables have
the same length. `Invariant` says this and what holds of the rows. Automata that
calls gave can be changed further in their tables; `Laid` are the tables that this leads
to.
-/

namespace PatternAutomata

/-- An automaton that keeps what is known of its states in two tables. -/
structure Tables where
  start : Nat
  accepting : List Bool
  rows : List Row
deriving DecidableEq

namespace Tables

/-- Adds a state to both tables. -/
def addState (t : Tables) : Tables :=
  { t with accepting := t.accepting ++ [false], rows := t.rows ++ [[]] }

/-- Whether a state accepts. -/
def acceptingAt (t : Tables) (s : Nat) : Checked Bool := Checked.entry t.accepting s

/-- The transitions of a state. -/
def rowAt (t : Tables) (s : Nat) : Checked Row := Checked.entry t.rows s

/-- Makes a state accepting, or not accepting. -/
def mark (t : Tables) (s : Nat) (accepting : Bool) : Checked Tables := do
  let _ ← t.acceptingAt s
  return { t with accepting := t.accepting.set s accepting }

/-- Adds a transition to the row of a state in the given way. -/
def link (attach : Row → Interval → Nat → Checked Row) (t : Tables) (s : Nat) (on : Interval)
    (target : Nat) : Checked Tables := do
  let row ← attach (← t.rowAt s) on target
  return { t with rows := t.rows.set s row }

/-- A change of the tables in place. -/
inductive Edit where
  | addState
  | mark (s : Nat) (accepting : Bool)
  | link (s : Nat) (on : Interval) (target : Nat)

/-- The tables after a change. -/
def edit (t : Tables) : Edit → Checked Tables
  | .addState => return t.addState
  | .mark s accepting => t.mark s accepting
  | .link s on target => t.link Checked.insertRow s on target

/-- The states that a change names are in the tables. -/
def InRange (t : Tables) : Edit → Prop
  | .addState => True
  | .mark s _ => s < t.rows.length
  | .link s _ target => s < t.rows.length ∧ target < t.rows.length

/-- The change adds a transition on a character that the state has one on. -/
def Overlaps (t : Tables) : Edit → Prop
  | .link s on _ => ∃ row, t.rows[s]? = some row ∧ ∃ u ∈ row, u.on.Meets on
  | _ => False

/-- The tables have the same length, the start and all targets are in them, and the
transitions of a row ascend without meeting, with neighbours joined if they can be. -/
structure Invariant (t : Tables) : Prop where
  length_eq : t.accepting.length = t.rows.length
  start_lt : t.start < t.rows.length
  target_lt : ∀ row ∈ t.rows, ∀ u ∈ row, u.target < t.rows.length
  bounds : ∀ row ∈ t.rows, ∀ u ∈ row, u.on.lo ≤ u.on.hi
  ascending : ∀ row ∈ t.rows, row.Pairwise fun u v => u.on.hi < v.on.lo
  maximal : ∀ row ∈ t.rows, row.IsChain fun u v => ¬ (u.on.Touches v.on ∧ u.target = v.target)

end Tables

/-- The two tables of an automaton. -/
def Dfa.tables (d : Dfa) : Tables :=
  ⟨d.start, d.states.map (·.accepting), d.states.map (·.row)⟩

/-- The tables that changes in place make of the tables of automata that calls gave. -/
inductive Tables.Laid : Tables → Prop where
  | obtained {d : Dfa} : Obtained d → Laid d.tables
  | edit {t u : Tables} {e : Edit} : Laid t → t.InRange e → t.edit e = pure u → Laid u

end PatternAutomata
