import PatternAutomata.Dfa.Basic
import PatternAutomata.Exploration

/-!
# Deterministic machines over arbitrary keys

Several constructions describe the automaton that they build by what its states
stand for: sets of states, pairs of states, classes of states, digits still to be
read. A `Machine` is such a description. Its keys need not be numbers, and there
may be more of them than are ever reached.

`toDfa` numbers the keys that can be reached in order of discovery and tabulates
the machine over these numbers; `tabulate` does so for a list of keys that is
given.

The words that a machine accepts are defined on its own terms (`Machine.accepts`),
so a construction is right if its machine accepts the intended words and
tabulation keeps them.
-/

namespace PatternAutomata

/-- A deterministic machine: where it starts, which keys accept, and where
characters lead to. The intervals of a key's edges are ascending and disjoint. -/
structure Machine (κ : Type u) where
  start : κ
  accepting : κ → Bool
  edges : κ → List (Interval × κ)

namespace Machine

variable {κ : Type u}

/-- The key that a character leads to. -/
def step? (m : Machine κ) (k : κ) (c : Char) : Option κ :=
  ((m.edges k).find? fun e => decide (c ∈ e.1)).map (·.2)

/-- The key that a word leads to. -/
def stepAll? (m : Machine κ) (k : κ) : List Char → Option κ
  | [] => some k
  | c :: cs => (m.step? k c).bind fun l => stepAll? m l cs

/-- Whether a word leads from a key to an accepting one. -/
def acceptsFrom (m : Machine κ) (k : κ) (word : List Char) : Bool :=
  (m.stepAll? k word).any m.accepting

/-- Whether the machine accepts a word. -/
def accepts (m : Machine κ) (word : List Char) : Bool := m.acceptsFrom m.start word

/-- The targets of the edges of a key, in order. -/
def successors (m : Machine κ) (k : κ) : List κ := (m.edges k).map (·.2)

variable [DecidableEq κ]

/-- The row of a key: its edges with the targets numbered by a list of keys. -/
def row (m : Machine κ) (keys : List κ) (k : κ) : Row :=
  Row.coalesce ((m.edges k).map fun e => ⟨e.1, keys.idxOf e.2⟩)

/-- The automaton whose states are the given keys, numbered by their indices. -/
def tabulate (m : Machine κ) (keys : List κ) : Dfa :=
  ⟨keys.idxOf m.start, keys.map fun k => ⟨m.accepting k, m.row keys k⟩⟩

/-- The automaton of the keys that can be reached, in order of discovery. The
bound has to be at least the number of these keys. -/
def toDfa (m : Machine κ) (d : Exploration.Discipline) (bound : Nat) : Dfa :=
  m.tabulate (Exploration.explore d m.successors bound [m.start])

end Machine

end PatternAutomata
