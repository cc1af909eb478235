import PatternAutomata.Checked.Draft
import PatternAutomata.Checked.Intervals
import PatternAutomata.Dfa.Product

/-!
# Elementary automata, complement and intersection by single calls

Each automaton is built up from the one without words by adding states and
transitions and by marking states as accepting.
-/

namespace PatternAutomata.Checked

/-! ## Elementary automata -/

/-- Accepts the empty word only. -/
def emptyWord : Checked Dfa := mark .empty Dfa.empty.start true

/-- Accepts the words of one character of the given intervals. -/
def ofIntervalList (is : List Interval) : Checked Dfa := do
  let start := Dfa.empty.start
  let last := Dfa.empty.size
  let d ← mark Dfa.empty.addState last true
  is.foldlM (fun d i => addTransition d start i last) d

/-- Accepts the words of one of the given characters. -/
def ofChars (cs : List Char) : Checked Dfa := do
  let set ← ofIntervals (← cs.mapM singleton)
  if set.isEmpty then pure .empty else ofIntervalList set.intervals

/-- Accepts the words of one character of `lo, …, hi`. -/
def ofRange (lo hi : Char) : Checked Dfa :=
  match Interval.ofBounds? lo hi with
  | some i => ofIntervalList [i]
  | none => pure .empty

/-- Adds states for reading a word after the given state; the last one accepts. -/
def spell (d : Dfa) (last : Nat) : List Char → Checked Dfa
  | [] => mark d last true
  | c :: cs => do
    let next := d.size
    spell (← addTransition d.addState last (← singleton c) next) next cs

/-- Accepts one given word. -/
def ofWord (word : List Char) : Checked Dfa := spell .empty Dfa.empty.start word

/-- Accepts all words. -/
def anyWord : Checked Dfa := do
  let d ← mark .empty Dfa.empty.start true
  addTransition d d.start (← ofBounds Scalar.least Scalar.greatest) d.start

/-! ## Complement -/

/-- Leads the characters that a state has no transition on to `dead`. -/
def fillState (dead : Nat) (d : Dfa) (s : Nat) : Checked Dfa := do
  let covered ← ofIntervals ((← rowAt d s).map (·.on))
  let missing ← invert covered
  missing.intervals.foldlM (fun d gap => addTransition d s gap dead) d

/-- Adds a transition on every missing character in every state. -/
def totalize (d : Dfa) : Checked Dfa :=
  (List.range d.addState.size).foldlM (fillState d.size) d.addState

/-- Accepts the words over all characters that the automaton does not accept. -/
def complement (d : Dfa) : Checked Dfa := do
  let total ← totalize d
  return { total with states := total.states.map fun s => { s with accepting := !s.accepting } }

/-! ## Intersection -/

/-- The machine that runs two automata at once. -/
def pairs (a b : Dfa) : CheckedMachine (Nat × Nat) where
  accepting p := return (← acceptingAt a p.1) && (← acceptingAt b p.2)
  edges p := return (← rowAt a p.1).sweep (← rowAt b p.2)

/-- Accepts the words that both automata accept. -/
def inter (a b : Dfa) : Checked Dfa := do
  let start := (a.start, b.start)
  return (← (Draft.init start).build (pairs a b) insertRow .stack (a.size * b.size) [start]).dfa

end PatternAutomata.Checked
