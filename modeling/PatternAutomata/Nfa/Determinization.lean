import PatternAutomata.Dfa.Machine
import Std.Data.ExtTreeMap
import Std.Data.ExtTreeSet

/-!
# Nondeterministic finite automata and determinization

An `Nfa` is where deterministic automata are put together before the result is
made deterministic again. States are numbers; what is known of a state is kept in
maps and sets that are equal whenever they have the same entries, so an `Nfa` does
not depend on the order in which its parts were added.

Besides transitions on characters there are silent ones, taken without reading.
`closure` follows these. `embed` copies a deterministic automaton over to fresh
states; the caller connects the copy by silent transitions.

## Main definitions

* `Nfa.closure`: the states reached by silent transitions.
* `Nfa.Path`: which states a word can lead to from a state, the meaning of an
  automaton that the constructions are measured against.
* `Nfa.embed`: a copy of a deterministic automaton on states of its own.
* `Nfa.determinize`: the deterministic automaton for the same words.
-/

namespace PatternAutomata

/-- A finite set of states. -/
abbrev StateSet := Std.ExtTreeSet Nat compare

/-- The transitions of one state: for each interval the set of possible targets. -/
abbrev Fan := IntervalMap StateSet

/-- A nondeterministic finite automaton. -/
structure Nfa where
  /-- The greatest state that was handed out. -/
  last : Nat
  start : Nat
  accepting : StateSet
  fans : Std.ExtTreeMap Nat Fan compare
  silent : Std.ExtTreeMap Nat StateSet compare

namespace Nfa

/-- The automaton with a start state and nothing else. -/
def empty : Nfa := ⟨0, 0, ∅, ∅, ∅⟩

instance : Inhabited Nfa := ⟨empty⟩

/-- The number of states handed out, the start state `0` included. -/
def size (a : Nfa) : Nat := a.last + 1

/-- A state that was not in use, and the automaton with it. -/
def freshState (a : Nfa) : Nat × Nfa := (a.last + 1, { a with last := a.last + 1 })

/-- Makes a state the start state. -/
def setStart (a : Nfa) (s : Nat) : Nfa := { a with start := s }

/-- Makes a state accepting. -/
def addAccepting (a : Nfa) (s : Nat) : Nfa := { a with accepting := a.accepting.insert s }

/-- Whether a state accepts. -/
def isAccepting (a : Nfa) (s : Nat) : Bool := a.accepting.contains s

/-- The transitions of a state, if it was given any. -/
def fan? (a : Nfa) (s : Nat) : Option Fan := a.fans[s]?

/-- The targets of the silent transitions of a state. -/
def silentFrom (a : Nfa) (s : Nat) : StateSet := (a.silent[s]?).getD ∅

/-- Adds a transition on the characters of an interval. -/
def addTransition (a : Nfa) (source : Nat) (on : Interval) (target : Nat) : Nfa :=
  let fan := (a.fan? source).getD ∅
  { a with fans := a.fans.insert source (fan.insert (· ∪ ·) on {target}) }

/-- Adds a transition that reads nothing. -/
def addSilent (a : Nfa) (source target : Nat) : Nfa :=
  { a with silent := a.silent.insert source ((a.silentFrom source).insert target) }

/-- The states that occur as targets of silent transitions. -/
def silentTargets (a : Nfa) : List Nat := a.silent.toList.flatMap fun e => e.2.toList

/-- The states that can be reached from some states by silent transitions, these
states included. -/
def closure (a : Nfa) (states : StateSet) : StateSet :=
  Std.ExtTreeSet.ofList
    (Exploration.explore .stack (fun s => (a.silentFrom s).toList)
      (states.size + a.silentTargets.length) states.toList)

/-! ## Meaning -/

/-- A word can lead from a state to another. -/
inductive Path (a : Nfa) : Nat → List Char → Nat → Prop where
  | nil (s : Nat) : Path a s [] s
  | silent {s t u : Nat} {word : List Char} :
      t ∈ a.silentFrom s → Path a t word u → Path a s word u
  | read {s t u : Nat} {c : Char} {word : List Char} {fan : Fan} {targets : StateSet} :
      a.fan? s = some fan → fan.find? c = some targets → t ∈ targets →
      Path a t word u → Path a s (c :: word) u

/-- Some path from the start spells the word and ends in an accepting state. -/
def Accepts (a : Nfa) (word : List Char) : Prop :=
  ∃ s, a.isAccepting s = true ∧ Path a a.start word s

/-! ## Copying deterministic automata -/

/-- Where the copy of an automaton is. -/
structure Embedding where
  start : Nat
  accepting : List Nat
deriving DecidableEq

/-- Adds the transitions of a row, all targets moved up by `offset`. -/
def addRow (a : Nfa) (offset source : Nat) (row : Row) : Nfa :=
  row.foldl (fun a t => a.addTransition source t.on (offset + t.target)) a

/-- Copies the states of an automaton to fresh states, in order. No state of the
copy is accepting, and nothing leads into it yet. -/
def embed (a : Nfa) (d : Dfa) : Embedding × Nfa :=
  let offset := a.last + 1
  let states := List.range d.size
  let grown := { a with last := a.last + d.size }
  (⟨offset + d.start, (states.filter d.isAccepting).map (offset + ·)⟩,
   states.foldl (fun a s => a.addRow offset (offset + s) (d.row s)) grown)

end Nfa

end PatternAutomata

/-! ## The subset construction

A state of the deterministic automaton stands for the
set of states that the nondeterministic one can be in, closed under silent
transitions. Its transitions overlay those of all members, uniting the targets
where intervals meet.

Sets are numbered as they are met, the youngest first. Only states that occur as
a target, and the start, are ever members; their number bounds the number of
sets. -/

namespace PatternAutomata.Nfa

/-- The transitions of some states laid over each other. -/
def overlay (a : Nfa) (states : StateSet) : Fan :=
  states.toList.foldl
    (fun all s => (((a.fan? s).getD ∅).entries).foldl
      (fun all e => all.insert (· ∪ ·) e.1 e.2) all)
    ∅

/-- The machine of the sets of states that the automaton can be in. -/
def subsets (a : Nfa) : Machine StateSet where
  start := a.closure {a.start}
  accepting states := states.toList.any a.isAccepting
  edges states := (a.overlay states).entries.map fun e => (e.1, a.closure e.2)

/-- The states that the automaton can get into. -/
def inhabitable (a : Nfa) : List Nat :=
  Exploration.distinct
    (a.start :: a.silentTargets
      ++ a.fans.toList.flatMap fun f => f.2.entries.flatMap fun e => e.2.toList)

/-- The deterministic automaton for the same words. -/
def determinize (a : Nfa) : Dfa := a.subsets.toDfa .stack (Nat.pow 2 a.inhabitable.length)

end PatternAutomata.Nfa
