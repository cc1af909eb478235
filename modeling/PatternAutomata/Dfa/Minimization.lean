import PatternAutomata.Dfa.Machine

/-!
# Minimization

The minimal automaton has one state per class of useful states that accept the
same words. The classes are found by refinement: states are told apart by whether
they accept, then by the classes that their characters lead to, until a round
tells no further states apart.

A `Partition` gives the class of each state. A round of refinement looks at the
old class of a state together with its `signature`, the row with targets replaced
by their classes. Rows that differ in the way their intervals are cut have equal
signatures once touching transitions to the same class are joined.

The classes are numbered breadth first from the start, so automata for the same
words have the same minimal automaton, numbers included.
-/

/-! ## Reachable and useful states

A state is useful if some accepted word leads through it: the start leads to it
and it leads to an accepting state. `trim?` keeps the useful states only. -/

namespace PatternAutomata.Dfa

/-- The states that a state leads to, in the order of its row. -/
def successors (d : Dfa) (s : Nat) : List Nat := (d.row s).map (·.target)

/-- The states that the start leads to. -/
def reachable (d : Dfa) : List Nat :=
  Exploration.explore .stack d.successors d.size [d.start]

/-- Whether the automaton accepts no word. -/
def isEmpty (d : Dfa) : Bool := !d.reachable.any d.isAccepting

/-- The states with a transition to a given one. -/
def predecessors (d : Dfa) (s : Nat) : List Nat :=
  (List.range d.size).filter fun p => decide (s ∈ d.successors p)

/-- The states that lead to an accepting state. -/
def productive (d : Dfa) : List Nat :=
  Exploration.explore .stack d.predecessors d.size
    ((List.range d.size).filter d.isAccepting)

/-- The useful states in ascending order. -/
def useful (d : Dfa) : List Nat :=
  let reachable := d.reachable
  let productive := d.productive
  (List.range d.size).filter fun s => decide (s ∈ reachable) && decide (s ∈ productive)

/-- The automaton with the useful states only, in the same order, if the start is
one of them. -/
def trim? (d : Dfa) : Option Dfa :=
  let keep := d.useful
  if d.start ∈ keep then
    some ⟨keep.idxOf d.start, keep.map fun s =>
      ⟨d.isAccepting s, (d.row s).filterMap fun t =>
        if t.target ∈ keep then some ⟨t.on, keep.idxOf t.target⟩ else none⟩⟩
  else none

/-! ## Partitions and quotients -/

/-- The class of each state, by its number. -/
abbrev Partition := List Nat

/-- The class of a state. -/
def Partition.classOf (p : Partition) (s : Nat) : Nat := p.getD s 0

/-- The number of classes. -/
def Partition.count (p : Partition) : Nat := (Exploration.distinct p).length

/-- The row of a state with the classes of the targets in place of the targets. -/
def signature (d : Dfa) (p : Partition) (s : Nat) : Row :=
  Row.coalesce ((d.row s).map fun t => ⟨t.on, p.classOf t.target⟩)

/-- What a round of refinement tells states apart by. -/
def distinction (d : Dfa) (p : Partition) (s : Nat) : Nat × Row :=
  (p.classOf s, d.signature p s)

/-- One round of refinement; the classes are numbered by their first states. -/
def refine (d : Dfa) (p : Partition) : Partition :=
  let keys := (List.range d.size).map (d.distinction p)
  let classes := Exploration.distinct keys
  keys.map classes.idxOf

/-- The states by whether they accept. -/
def byAcceptance (d : Dfa) : Partition := d.states.map fun s => s.accepting.toNat

/-- Refines a partition until a round leaves the number of classes as it was, in at
most `rounds` rounds. -/
def settle (d : Dfa) : Nat → Nat → Partition → Partition
  | 0, _, p => p
  | rounds + 1, count, p =>
    let next := d.refine p
    if next.count = count then next else settle d rounds next.count next

/-- The coarsest partition that tells states with different words apart. The number
of classes grows in each round but the last and is at most the number of states. -/
def partition (d : Dfa) : Partition := d.settle (d.size + 1) 0 d.byAcceptance

/-- The machine of the classes of a partition; a class behaves as its first state. -/
def quotient (d : Dfa) (p : Partition) : Machine Nat where
  start := p.classOf d.start
  accepting k := d.isAccepting (p.idxOf k)
  edges k := (d.signature p (p.idxOf k)).map fun t => (t.on, t.target)

/-- The least automaton for the same words. -/
def minimized (d : Dfa) : Dfa :=
  match d.trim? with
  | none => empty
  | some t => (t.quotient t.partition).toDfa .queue t.partition.count

end PatternAutomata.Dfa
