import PatternAutomata.Checked.Draft
import PatternAutomata.Checked.Minimization

/-!
# Minimization with tables of marks

The useful states need not be taken out of an automaton before its states are classified.
They can be marked in a table, and what comes after passes over the states without a mark
and over the transitions to them. A state gets its mark when a search meets it, and waits
then until the search looks at it. The search for states that lead to acceptance goes
against the transitions, so it needs a table of these first.

The table of classes has an entry for each state, too. A round of refinement goes through
the marked states and numbers what it tells them apart by in the order in which it comes
up. A state without a mark gets a number that no class has.

Neither a search nor the refinement knows beforehand how many rounds there will be.
`UsefulMarks` and `Rounds` describe the loops as they are, so they have proofs only if the
loops end and every call on the way goes well.
-/

namespace PatternAutomata.Checked

/-! ## Marks -/

/-- Marks the states of a list that have no mark yet. They have to wait. -/
def meet : List Nat → List Bool → Checked (List Bool × List Nat)
  | [], marks => return (marks, [])
  | s :: states, marks => do
    if ← entry marks s then meet states marks
    else do
      let (marks, new) ← meet states (marks.set s true)
      return (marks, s :: new)

/-- Looks at a state: the states that come next are met. -/
def visit (next : Nat → Checked (List Nat)) (s : Nat) (marks : List Bool) :
    Checked (List Bool × List Nat) := do
  meet (← next s) marks

/-- Marks all states of a list. -/
def markAll (states : List Nat) (marks : List Bool) : List Bool :=
  states.foldl (fun marks s => marks.set s true) marks

/-- For each state the states with a transition to it, one by one for each transition. -/
def sources (d : Dfa) : Checked (List (List Nat)) :=
  (List.range d.size).foldlM (fun table s => do
    (← rowAt d s).foldlM (fun table t => do
      return table.set t.target ((← entry table t.target) ++ [s])) table)
    (List.replicate d.size [])

/-- The accepting states with a mark. -/
def acceptingMarked (d : Dfa) (marks : List Bool) : Checked (List Nat) :=
  (List.range d.size).filterM fun s => do
    if ← acceptingAt d s then entry marks s else return false

/-- The marks that two searches come to: the first one goes along the transitions from the
start, the second one against them from the accepting states that the first one met, without
leaving what the first one met. -/
inductive UsefulMarks (d : Dfa) : List Bool → Prop where
  | intro {reached live : List Bool} {table : List (List Nat)} {starts : List Nat} :
      Drains .stack (visit (successors d)) [d.start]
        ((List.replicate d.size false).set d.start true) reached →
      sources d = pure table →
      acceptingMarked d reached = pure starts →
      Drains .stack (visit fun s => do (← entry table s).filterM (entry reached)) starts.reverse
        (markAll starts (List.replicate d.size false)) live →
      UsefulMarks d live

/-! ## Classes of marked states -/

/-- The number of no class. -/
def unclassed : Nat := UInt64.size - 1

/-- The row of a state with the classes of the targets in place of the targets; transitions
to states without a mark are passed over. -/
def markedSignature (d : Dfa) (keep : List Bool) (p : Dfa.Partition) (s : Nat) :
    Checked Row := do
  (← rowAt d s).foldlM (fun sig t => do
    if ← entry keep t.target then absorb sig ⟨t.on, ← entry p t.target⟩ else return sig) []

/-- What a round tells marked states apart by. -/
def markedDistinction (d : Dfa) (keep : List Bool) (p : Dfa.Partition) (s : Nat) :
    Checked (Nat × Row) :=
  return (← entry p s, ← markedSignature d keep p s)

/-- Gives a state the number of its key, a new one if the key did not come up before. -/
def classify (d : Dfa) (keep : List Bool) (p : Dfa.Partition)
    (x : List (Nat × Row) × Dfa.Partition) (s : Nat) :
    Checked (List (Nat × Row) × Dfa.Partition) := do
  let key ← markedDistinction d keep p s
  let keys := if key ∈ x.1 then x.1 else x.1 ++ [key]
  return (keys, x.2.set s (← number keys key))

/-- One round of refinement: the new classes, and how many there are. -/
def round (d : Dfa) (keep : List Bool) (p : Dfa.Partition) : Checked (Dfa.Partition × Nat) := do
  let states ← (List.range d.size).filterM (entry keep)
  let (keys, next) ← states.foldlM (classify d keep p) ([], List.replicate d.size unclassed)
  return (next, keys.length)

/-- Refinement goes on until a round gives as many classes as there were before it. From
some classes and their number it takes a number of rounds and comes to a result. -/
inductive Rounds (d : Dfa) (keep : List Bool) :
    Dfa.Partition → Nat → Nat → Dfa.Partition → Prop where
  | last {p next : Dfa.Partition} {count : Nat} :
      round d keep p = pure (next, count) → Rounds d keep p count 1 next
  | more {p next result : Dfa.Partition} {count grown rounds : Nat} :
      round d keep p = pure (next, grown) → grown ≠ count →
      Rounds d keep next grown rounds result → Rounds d keep p count (rounds + 1) result

end PatternAutomata.Checked
