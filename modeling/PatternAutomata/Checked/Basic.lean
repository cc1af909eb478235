import PatternAutomata.Dfa.Basic
import PatternAutomata.Interval.Lists

/-!
# Automata by single calls

The operations on automata are made of calls that can go wrong. A table may have
no entry at an index or under a key, an interval needs its bounds in order, and a
state takes no two transitions on one character. The definitions elsewhere answer
such a call with a default, or cannot express it; here it ends the computation with
a `Fault`. An operation composed of checked calls is therefore as safe as it looks
only if it can be shown to come out without a fault.

Intervals that exist have their bounds in order, so the check is due where one is
formed from two characters.

## Main definitions

* `entry`, `number`, `ofBounds`: looking up, numbering, forming an interval.
* `insertRow`: adds a transition to a row by its place in the table, joining it
  with its neighbours on either side.
* `mark`, `link`: changes of a state of an automaton.
-/

namespace PatternAutomata

/-- Why a computation breaks off. -/
inductive Fault where
  /-- An operation refuses its arguments. -/
  | misuse (m : Misuse)
  /-- A table has no entry at the given index. -/
  | outOfRange
  /-- A table has no entry for the given key. -/
  | missing
deriving DecidableEq, Repr

/-- A computation made of calls that can go wrong. -/
abbrev Checked (α : Type u) := Except Fault α

namespace Checked

open PatternAutomata.Interval

/-! ## Tables and intervals -/

/-- The entry of a table at an index. -/
def entry {α : Type u} (table : List α) (k : Nat) : Checked α :=
  match table[k]? with
  | some x => pure x
  | none => throw .outOfRange

/-- The index of a key in a list that has it. -/
def number {κ : Type u} [DecidableEq κ] (keys : List κ) (k : κ) : Checked Nat :=
  if k ∈ keys then pure (keys.idxOf k) else throw .missing

/-- Asks that the range is one of indices of a list. -/
def within {α : Type u} (r : IndexRange) (xs : List α) : Checked Unit :=
  if r.start ≤ r.stop ∧ r.stop ≤ xs.length then pure () else throw .outOfRange

/-- The interval between two bounds, which have to be in order. -/
def ofBounds (lo hi : Char) : Checked Interval := (Interval.ofBounds lo hi).mapError .misuse

theorem entry_eq {α : Type u} {table : List α} {k : Nat} {x : α} (h : table[k]? = some x) :
    entry table k = pure x := by
  rw [entry, h]

theorem number_eq {κ : Type u} [DecidableEq κ] {keys : List κ} {k : κ} (h : k ∈ keys) :
    number keys k = pure (keys.idxOf k) := if_pos h

theorem ofBounds_eq {lo hi : Char} {i : Interval} (hlo : i.lo = lo) (hhi : i.hi = hi) :
    ofBounds lo hi = pure i := by
  rw [ofBounds, Interval.ofBounds, ofBounds?_eq_some_iff.2 ⟨hlo, hhi⟩]
  rfl

@[simp] theorem ofBounds_ends (i : Interval) : ofBounds i.lo i.hi = pure i :=
  ofBounds_eq rfl rfl

/-! ## Calls on the members of a list -/

section Lists

variable {α β : Type} {xs : List α}

theorem mapM_eq {f : α → Checked β} {g : α → β} (h : ∀ x ∈ xs, f x = pure (g x)) :
    xs.mapM f = pure (xs.map g) := by
  induction xs with
  | nil => rfl
  | cons x xs ih =>
    rw [List.mapM_cons, h x (by simp), pure_bind,
      ih fun y hy => h y (List.mem_cons_of_mem x hy), pure_bind]
    rfl

theorem filterM_eq {f : α → Checked Bool} {g : α → Bool} (h : ∀ x ∈ xs, f x = pure (g x)) :
    xs.filterM f = pure (xs.filter g) := by
  have haux : ∀ ys, xs.filterAuxM f ys = pure ((xs.filter g).reverse ++ ys) := by
    induction xs with
    | nil => exact fun ys => rfl
    | cons x xs ih =>
      intro ys
      rw [List.filterAuxM, h x (by simp), pure_bind,
        ih fun y hy => h y (List.mem_cons_of_mem x hy)]
      cases hx : g x <;> simp [hx]
  rw [List.filterM, haux, pure_bind, List.append_nil, List.reverse_reverse]

theorem filterMapM_eq {f : α → Checked (Option β)} {g : α → Option β}
    (h : ∀ x ∈ xs, f x = pure (g x)) : xs.filterMapM f = pure (xs.filterMap g) := by
  induction xs with
  | nil => rfl
  | cons x xs ih =>
    rw [List.filterMapM_cons, h x (by simp), pure_bind,
      ih fun y hy => h y (List.mem_cons_of_mem x hy), List.filterMap_cons]
    cases g x <;> rfl

/-- Calls that keep a property and find what they need where it holds. -/
theorem foldlM_eq {f : β → α → Checked β} {g : β → α → β} {P : β → Prop}
    (h : ∀ b, P b → ∀ x ∈ xs, f b x = pure (g b x) ∧ P (g b x)) {b : β} (hb : P b) :
    xs.foldlM f b = pure (xs.foldl g b) ∧ P (xs.foldl g b) := by
  induction xs generalizing b with
  | nil => exact ⟨rfl, hb⟩
  | cons x xs ih =>
    obtain ⟨hx, hnext⟩ := h b hb x (by simp)
    rw [List.foldlM_cons, hx, pure_bind]
    exact ih (fun b hb y hy => h b hb y (List.mem_cons_of_mem x hy)) hnext

end Lists

/-! ## Rows -/

/-- How far a transition to `target` on `on` reaches once it is joined with the entry
at its place, and up to which index it replaces the row. An entry that starts below
the end of the interval is refused. -/
def joinAbove (row : Row) (on : Interval) (target place : Nat) : Checked (Char × Nat) := do
  if place < row.length then
    let next ← entry row place
    if on.hi < next.on.lo then
      if next.target = target ∧ on.Touches next.on then return (next.on.hi, place + 1)
      else return (on.hi, place)
    else throw (.misuse .overlappingTransitions)
  else return (on.hi, place)

/-- Where a transition to `target` on `on` starts once it is joined with the entry
before its place, and from which index it replaces the row. -/
def joinBelow (row : Row) (on : Interval) (target place : Nat) : Checked (Char × Nat) := do
  if place = 0 then return (on.lo, place)
  else
    let previous ← entry row (place - 1)
    if previous.target = target ∧ on.Touches previous.on then
      return (previous.on.lo, place - 1)
    else return (on.lo, place)

/-- Adds a transition after the entries below it, unless the next one meets it. -/
def insertRow (row : Row) (on : Interval) (target : Nat) : Checked Row := do
  let place := partitionPoint (fun t => decide (t.on.hi < on.lo)) row
  let (hi, stop) ← joinAbove row on target place
  let upper ← ofBounds on.lo hi
  let (lo, start) ← joinBelow row upper target place
  let joined ← ofBounds lo hi
  return row.take start ++ ⟨joined, target⟩ :: row.drop stop

/-- Adds a transition at the end, without a look at the row. -/
def pushRow (row : Row) (on : Interval) (target : Nat) : Checked Row :=
  return row ++ [⟨on, target⟩]

/-! ## States of an automaton -/

/-- The state with a number. -/
def stateAt (d : Dfa) (s : Nat) : Checked Dfa.State := entry d.states s

/-- The transitions of a state. -/
def rowAt (d : Dfa) (s : Nat) : Checked Row := return (← stateAt d s).row

/-- Whether a state accepts. -/
def acceptingAt (d : Dfa) (s : Nat) : Checked Bool := return (← stateAt d s).accepting

/-- Makes a state accepting, or not accepting. -/
def mark (d : Dfa) (s : Nat) (accepting : Bool) : Checked Dfa := do
  let _ ← stateAt d s
  return d.setAccepting s accepting

/-- Adds a transition to the row of a state in the given way. -/
def link (attach : Row → Interval → Nat → Checked Row) (d : Dfa) (s : Nat) (on : Interval)
    (target : Nat) : Checked Dfa := do
  let row ← attach (← rowAt d s) on target
  return { d with states := d.states.modify s fun state => { state with row } }

/-- Adds a transition. A state has at most one transition per character. -/
def addTransition : Dfa → Nat → Interval → Nat → Checked Dfa := link insertRow

end Checked

end PatternAutomata
