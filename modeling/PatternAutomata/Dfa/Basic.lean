import PatternAutomata.Interval.Lists

/-!
# Deterministic finite automata

A `Dfa` has states `0, 1, …`, a start state, and for each state whether it accepts
and a `Row` of transitions. A transition is taken on every character of an
interval. Rows are kept in ascending order, intervals of a row are disjoint, and
two that touch lead to different states; a character without a transition ends
the run without acceptance.

`Row.insert?` is the way to add a transition: it refuses an interval that meets
one of the row and joins touching intervals with a common target.

## Main definitions

* `Dfa.accepts`: whether a word leads from the start to an accepting state.
* `Dfa.addTransition`: insertion into the row of a state.
* `Dfa.WellFormed`, `Dfa.Canonical`: what the operations expect, and what they give.
* `Dfa.emptyWord`, `Dfa.ofSet`, `Dfa.ofWord`, `Dfa.anyWord`: elementary automata.
-/

namespace PatternAutomata

/-- A transition to a state, taken on every character of an interval. -/
structure Transition where
  on : Interval
  target : Nat
deriving DecidableEq

/-- The number of characters that the transition is taken on. -/
def Transition.width (t : Transition) : Nat := t.on.size

/-- The transitions of one state, in ascending order. -/
abbrev Row := List Transition

namespace Row

/-- The state that a character leads to. -/
def step? (row : Row) (c : Char) : Option Nat :=
  (row.find? fun t => decide (c ∈ t.on)).map (·.target)

/-- Puts a transition in front of a row, joining it with the first one if the two
touch and lead to the same state. -/
def glue (t : Transition) : Row → Row
  | [] => [t]
  | u :: row =>
    if t.target = u.target ∧ t.on.Touches u.on then ⟨t.on.hull u.on, t.target⟩ :: row
    else t :: u :: row

/-- Joins touching transitions to the same state throughout a row. -/
def coalesce (row : Row) : Row := row.foldr glue []

/-- Adds a transition at its place, unless it shares a character with the row. -/
def insert? (t : Transition) : Row → Option Row
  | [] => some [t]
  | u :: row =>
    if u.on.hi < t.on.lo then (insert? t row).map (glue u)
    else if t.on.hi < u.on.lo then some (glue t (u :: row))
    else none

end Row

namespace Dfa

/-- What an automaton knows about one of its states. -/
structure State where
  accepting : Bool
  row : Row
deriving DecidableEq

/-- The state that neither accepts nor goes anywhere. -/
def State.idle : State := ⟨false, []⟩

end Dfa

/-- A deterministic finite automaton; the states are the indices of the list. -/
structure Dfa where
  start : Nat
  states : List Dfa.State
deriving DecidableEq

namespace Dfa

/-- The automaton with one state, which does not accept. It accepts no word. -/
def empty : Dfa := ⟨0, [.idle]⟩

instance : Inhabited Dfa := ⟨empty⟩

/-- The number of states. -/
def size (d : Dfa) : Nat := d.states.length

/-- The transitions of a state. -/
def row (d : Dfa) (s : Nat) : Row :=
  match d.states[s]? with
  | some state => state.row
  | none => []

/-- Whether a state accepts. -/
def isAccepting (d : Dfa) (s : Nat) : Bool :=
  match d.states[s]? with
  | some state => state.accepting
  | none => false

/-- The state that a character leads to from another state. -/
def step? (d : Dfa) (s : Nat) (c : Char) : Option Nat := (d.row s).step? c

/-- The state that a word leads to from another state. -/
def stepAll? (d : Dfa) (s : Nat) : List Char → Option Nat
  | [] => some s
  | c :: cs => (d.step? s c).bind fun t => stepAll? d t cs

/-- Whether a word leads from a state to an accepting one. -/
def acceptsFrom (d : Dfa) (s : Nat) (word : List Char) : Bool :=
  (d.stepAll? s word).any d.isAccepting

/-- Whether the automaton accepts a word. -/
def accepts (d : Dfa) (word : List Char) : Bool := d.acceptsFrom d.start word

/-! ## Building an automaton by hand -/

/-- Adds a state without transitions that does not accept. -/
def addState (d : Dfa) : Dfa := { d with states := d.states ++ [.idle] }

/-- Makes a state accepting, or not accepting. -/
def setAccepting (d : Dfa) (s : Nat) (accepting : Bool) : Dfa :=
  { d with states := d.states.modify s fun state => { state with accepting } }

/-- Adds a transition. A state has at most one transition per character. -/
def addTransition (d : Dfa) (source : Nat) (on : Interval) (target : Nat) :
    Except Misuse Dfa :=
  match Row.insert? ⟨on, target⟩ (d.row source) with
  | some row =>
    .ok { d with states := d.states.modify source fun state => { state with row } }
  | none => .error .overlappingTransitions

/-! ## Look-ups, words and changes -/


variable {d : Dfa} {s t : Nat} {c : Char} {w : List Char}

theorem row_eq_of_getElem? {state : State} (h : d.states[s]? = some state) :
    d.row s = state.row := by
  rw [row, h]

theorem isAccepting_eq_of_getElem? {state : State} (h : d.states[s]? = some state) :
    d.isAccepting s = state.accepting := by
  rw [isAccepting, h]

theorem row_eq_nil (h : d.size ≤ s) : d.row s = [] := by
  rw [row, List.getElem?_eq_none h]

theorem isAccepting_eq_false (h : d.size ≤ s) : d.isAccepting s = false := by
  rw [isAccepting, List.getElem?_eq_none h]

theorem lt_size_of_isAccepting (h : d.isAccepting s = true) : s < d.size := by
  by_cases hs : s < d.size
  · exact hs
  · rw [isAccepting_eq_false (Nat.le_of_not_lt hs)] at h
    cases h

theorem getElem?_states (hs : s < d.size) :
    d.states[s]? = some ⟨d.isAccepting s, d.row s⟩ := by
  have hget : d.states[s]? = some d.states[s] := List.getElem?_eq_getElem hs
  rw [hget, row_eq_of_getElem? hget, isAccepting_eq_of_getElem? hget]

@[simp] theorem stepAll?_nil (d : Dfa) (s : Nat) : d.stepAll? s [] = some s := rfl

@[simp] theorem stepAll?_cons (d : Dfa) (s : Nat) (c : Char) (w : List Char) :
    d.stepAll? s (c :: w) = (d.step? s c).bind fun t => d.stepAll? t w := rfl

@[simp] theorem acceptsFrom_nil (d : Dfa) (s : Nat) :
    d.acceptsFrom s [] = d.isAccepting s := rfl

theorem acceptsFrom_cons (d : Dfa) (s : Nat) (c : Char) (w : List Char) :
    d.acceptsFrom s (c :: w) = (d.step? s c).any fun t => d.acceptsFrom t w := by
  rw [acceptsFrom, stepAll?_cons]
  cases d.step? s c <;> rfl

theorem acceptsFrom_cons_iff :
    d.acceptsFrom s (c :: w) = true ↔ ∃ t, d.step? s c = some t ∧ d.acceptsFrom t w = true := by
  rw [acceptsFrom_cons, Option.any_eq_true]

@[simp] theorem size_addState (d : Dfa) : d.addState.size = d.size + 1 := by
  simp [addState, size]

@[simp] theorem size_setAccepting (d : Dfa) (s : Nat) (b : Bool) :
    (d.setAccepting s b).size = d.size := by
  simp [setAccepting, size]

theorem getElem?_addState (d : Dfa) : d.addState.states[d.size]? = some .idle :=
  List.getElem?_concat_length

@[simp] theorem row_addState (d : Dfa) (s : Nat) : d.addState.row s = d.row s := by
  rcases Nat.lt_trichotomy s d.size with hs | hs | hs
  · rw [row, row, addState, List.getElem?_append_left hs]
  · rw [row_eq_nil (Nat.le_of_eq hs.symm)]
    rw [hs]
    exact row_eq_of_getElem? (getElem?_addState d)
  · rw [row_eq_nil (Nat.le_of_lt hs), row_eq_nil (by rwa [size_addState])]

@[simp] theorem row_setAccepting (d : Dfa) (s : Nat) (b : Bool) (t : Nat) :
    (d.setAccepting s b).row t = d.row t := by
  rw [row, row, setAccepting, List.getElem?_modify]
  cases d.states[t]? with
  | none => rfl
  | some state => by_cases hst : s = t <;> simp [hst]

@[simp] theorem isAccepting_addState (d : Dfa) (s : Nat) :
    d.addState.isAccepting s = d.isAccepting s := by
  rcases Nat.lt_trichotomy s d.size with hs | hs | hs
  · rw [isAccepting, isAccepting, addState, List.getElem?_append_left hs]
  · rw [isAccepting_eq_false (Nat.le_of_eq hs.symm)]
    rw [hs]
    exact isAccepting_eq_of_getElem? (getElem?_addState d)
  · rw [isAccepting_eq_false (Nat.le_of_lt hs), isAccepting_eq_false (by rwa [size_addState])]

end Dfa

/-! ## Well-formed automata

The operations on automata expect that states are in range and that rows ascend
(`Dfa.WellFormed`). The automata that they make have rows, moreover, in which
touching transitions lead to different states (`Dfa.Canonical`). -/

/-- The transitions of a row ascend without meeting. -/
def Row.Ordered (row : Row) : Prop := Interval.Ascending (row.map (·.on))

/-- The row is ordered, and touching transitions lead to different states. -/
def Row.Joined (row : Row) : Prop :=
  row.Pairwise fun t u => t.on.Before u.on ∧ ¬ (t.target = u.target ∧ t.on.Touches u.on)

instance (row : Row) : Decidable row.Ordered :=
  inferInstanceAs (Decidable (Interval.Ascending _))

instance (row : Row) : Decidable row.Joined :=
  inferInstanceAs (Decidable (row.Pairwise _))

namespace Dfa

/-- The start and all targets are states, and rows are ordered. -/
structure WellFormed (d : Dfa) : Prop where
  start_lt : d.start < d.size
  target_lt : ∀ s ∈ d.states, ∀ t ∈ s.row, t.target < d.size
  ordered : ∀ s ∈ d.states, s.row.Ordered

/-- The automaton is well-formed, and touching transitions are joined. -/
structure Canonical (d : Dfa) : Prop extends d.WellFormed where
  joined : ∀ s ∈ d.states, s.row.Joined

end Dfa

end PatternAutomata

/-! ## Elementary automata

Automata for the languages that larger ones are made of: one word, one character
out of a set, every word. -/

namespace PatternAutomata.Dfa

/-- Accepts the empty word only. -/
def emptyWord : Dfa := ⟨0, [⟨true, []⟩]⟩

/-- Accepts the words of one character of the set. -/
def ofSet (s : IntervalSet) : Dfa :=
  if s.isEmpty then empty
  else ⟨0, [⟨false, s.intervals.map (⟨·, 1⟩)⟩, ⟨true, []⟩]⟩

/-- Accepts the words of one of the given characters. -/
def ofChars (cs : List Char) : Dfa := ofSet (IntervalSet.ofChars cs)

/-- Accepts the words of one character of `lo, …, hi`; reversed bounds stand for no
character. -/
def ofRange (lo hi : Char) : Dfa := ofSet (IntervalSet.ofBounds lo hi)

/-- Accepts the word of one given character. -/
def ofChar (c : Char) : Dfa := ofRange c c

/-- Accepts all words of one character. -/
def anyChar : Dfa := ofRange Scalar.least Scalar.greatest

/-- The states for reading the rest of a word, numbered from `k`. -/
def spell (k : Nat) : List Char → List State
  | [] => [⟨true, []⟩]
  | c :: cs => ⟨false, [⟨.singleton c, k + 1⟩]⟩ :: spell (k + 1) cs

/-- Accepts one given word. -/
def ofWord (word : List Char) : Dfa := ⟨0, spell 0 word⟩

/-- Accepts all words. -/
def anyWord : Dfa := ⟨0, [⟨true, [⟨.full, 0⟩]⟩]⟩

end PatternAutomata.Dfa
