import PatternAutomata.Checked.Draft
import PatternAutomata.Dfa.Minimization

/-!
# Minimization by single calls

The searches for useful states mark states in a table, a round of refinement looks
up the classes of all targets, and the quotient takes a representative for each
class. Its rows are put together from signatures, which are joined already, without
a look at what is there.
-/

namespace PatternAutomata.Checked

/-! ## Useful states -/

/-- The states that a state leads to, each of which is looked up. -/
def successors (d : Dfa) (s : Nat) : Checked (List Nat) := do
  (← rowAt d s).mapM fun t => do
    let _ ← stateAt d t.target
    return t.target

/-- The states with a transition to a given one. -/
def predecessors (d : Dfa) (s : Nat) : Checked (List Nat) := do
  let _ ← stateAt d s
  (List.range d.size).filterM fun p => return decide (s ∈ (← successors d p))

/-- Looks at the waiting nodes, at most `bound` of them, and extends the list of the
nodes met. -/
def search (successors : Nat → Checked (List Nat)) :
    Nat → List Nat → List Nat → Checked (List Nat)
  | 0, _, seen => pure seen
  | _ + 1, [], seen => pure seen
  | bound + 1, k :: pending, seen => do
    let new := Exploration.fresh seen (← successors k)
    search successors bound (new.reverse ++ pending) (seen ++ new)

/-- The states that the start leads to. -/
def reachable (d : Dfa) : Checked (List Nat) := do
  let _ ← stateAt d d.start
  search (successors d) d.size [d.start] [d.start]

/-- The states that lead to an accepting state. -/
def productive (d : Dfa) : Checked (List Nat) := do
  let starts ← (List.range d.size).filterM (acceptingAt d)
  search (predecessors d) d.size starts starts

/-- The useful states in ascending order. -/
def useful (d : Dfa) : Checked (List Nat) := do
  let reachable ← reachable d
  let productive ← productive d
  return (List.range d.size).filter fun s => decide (s ∈ reachable) && decide (s ∈ productive)

/-- The transitions of a row to the states that are kept, with new numbers. -/
def keepRow (d : Dfa) (keep : List Nat) (row : Row) : Checked Row := do
  let row ← row.filterM fun t => do
    let _ ← stateAt d t.target
    return decide (t.target ∈ keep)
  row.mapM fun t => return ⟨t.on, ← number keep t.target⟩

/-- The automaton with the useful states only, if the start is one of them. -/
def trim? (d : Dfa) : Checked (Option Dfa) := do
  let keep ← useful d
  if d.start ∈ keep then
    let start ← number keep d.start
    let states ← keep.mapM fun s => do
      let row ← keepRow d keep (← rowAt d s)
      return ⟨← acceptingAt d s, row⟩
    return some ⟨start, states⟩
  else return none

/-! ## Classes -/

/-- Puts a transition at the end of a row, or joins it with the last one if the two
touch and lead to the same class. -/
def absorb (sig : Row) (t : Transition) : Checked Row :=
  match sig.getLast? with
  | some last =>
    if last.target = t.target ∧ t.on.Touches last.on then do
      return sig.dropLast ++ [⟨← ofBounds last.on.lo t.on.hi, t.target⟩]
    else return sig ++ [t]
  | none => return [t]

/-- The row of a state with the classes of the targets in place of the targets. -/
def signature (d : Dfa) (p : Dfa.Partition) (s : Nat) : Checked Row := do
  (← rowAt d s).foldlM (fun sig t => do absorb sig ⟨t.on, ← entry p t.target⟩) []

/-- What a round of refinement tells states apart by. -/
def distinction (d : Dfa) (p : Dfa.Partition) (s : Nat) : Checked (Nat × Row) :=
  return (← entry p s, ← signature d p s)

/-- One round of refinement. -/
def refine (d : Dfa) (p : Dfa.Partition) : Checked Dfa.Partition := do
  let keys ← (List.range d.size).mapM (distinction d p)
  keys.mapM (number (Exploration.distinct keys))

/-- Refines a partition until a round leaves the number of classes as it was, in at
most `rounds` rounds. -/
def settle (d : Dfa) : Nat → Nat → Dfa.Partition → Checked Dfa.Partition
  | 0, _, p => pure p
  | rounds + 1, count, p => do
    let next ← refine d p
    if next.count = count then return next else settle d rounds next.count next

/-- The coarsest partition that tells states with different words apart. -/
def partition (d : Dfa) : Checked Dfa.Partition := settle d (d.size + 1) 0 d.byAcceptance

/-- The machine of the classes of a partition; a class behaves as its first state. -/
def quotient (d : Dfa) (p : Dfa.Partition) : CheckedMachine Nat where
  accepting k := do acceptingAt d (← number p k)
  edges k := return (← signature d p (← number p k)).map fun t => (t.on, t.target)

/-- The least automaton for the same words. -/
def minimized (d : Dfa) : Checked Dfa := do
  match ← trim? d with
  | none => return .empty
  | some t => do
    let p ← partition t
    let start ← entry p t.start
    return (← (Draft.init start).build (quotient t p) pushRow .queue p.count [start]).dfa

end PatternAutomata.Checked
