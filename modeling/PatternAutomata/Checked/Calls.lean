import PatternAutomata.Checked.Compilation
import PatternAutomata.Dfa.Basic
import PatternAutomata.Pattern.Shape

/-!
# The calls that make automata

A `Call` is a constructor or an operation together with its arguments. `perform` is
what happens when it is made, faults included; `result` is the automaton according to
the definition of the operation. The automata that can be had are those that calls on
such automata give (`Obtained`).
-/

namespace PatternAutomata

/-- A step of putting a nondeterministic automaton together. -/
inductive Nfa.Edit where
  /-- Hands out a state that was not in use. -/
  | fresh
  | setStart (s : Nat)
  | addAccepting (s : Nat)
  | addSilent (source target : Nat)
  | addTransition (source : Nat) (on : Interval) (target : Nat)
  /-- Copies a deterministic automaton. -/
  | embed (d : Dfa)

/-- The automaton after a step. -/
def Nfa.edit (a : Nfa) : Nfa.Edit → Nfa
  | .fresh => a.freshState.2
  | .setStart s => a.setStart s
  | .addAccepting s => a.addAccepting s
  | .addSilent source target => a.addSilent source target
  | .addTransition source on target => a.addTransition source on target
  | .embed d => (a.embed d).2

/-- A constructor of automata or an operation on them, with its arguments. -/
inductive Call where
  | new
  | emptyWord
  | anyWord
  | ofRange (lo hi : Char)
  | ofChars (cs : List Char)
  | ofWord (word : List Char)
  | numerals (a b : UInt32) (width : Nat)
  | addState (d : Dfa)
  | setAccepting (d : Dfa) (s : Nat) (accepting : Bool)
  | addTransition (d : Dfa) (source : Nat) (on : Interval) (target : Nat)
  | union (ds : List Dfa)
  | concat (ds : List Dfa)
  | optional (d : Dfa)
  | star (d : Dfa)
  | atLeast (d : Dfa) (min : Nat)
  | between (d : Dfa) (min max : Nat)
  | inter (a b : Dfa)
  | complement (d : Dfa)
  | minimized (d : Dfa)
  /-- The deterministic automaton for one that is put together in the given steps. -/
  | determinize (edits : List Nfa.Edit)
  | compile (alphabet : Option Alphabet) (env : Environment) (p : Pattern)

namespace Checked

/-- The automaton after a step. -/
def edit (a : Nfa) : Nfa.Edit → Checked Nfa
  | .addTransition source on target => connect a source on target
  | .embed d => return (← embed a d).2
  | e => pure (a.edit e)

/-- How a compilation ends. -/
def settled (x : Compiling Dfa) : Checked (Except UnresolvedReference Dfa) :=
  match (x.run.outcome).1 with
  | .ok (.ok d) => pure (.ok d)
  | .ok (.error fault) => throw fault
  | .error e => pure (.error e)

/-- Whether a word leads from a state to an accepting one. -/
def acceptsFrom (d : Dfa) (s : Nat) : List Char → Checked Bool
  | [] => acceptingAt d s
  | c :: cs => do
    match (← rowAt d s).step? c with
    | some t => acceptsFrom d t cs
    | none => return false

/-- Whether the automaton accepts a word. -/
def accepts (d : Dfa) (word : List Char) : Checked Bool := acceptsFrom d d.start word

/-- Whether the automaton accepts no word. -/
def isEmpty (d : Dfa) : Checked Bool := do
  return !(← (← reachable d).mapM (acceptingAt d)).any id

end Checked

namespace Call

/-- The automata among the arguments of a call. -/
def Operand (c : Call) (d : Dfa) : Prop :=
  match c with
  | addState e | setAccepting e _ _ | addTransition e _ _ _ | optional e | star e
  | atLeast e _ | between e _ _ | complement e | minimized e => d = e
  | inter a b => d = a ∨ d = b
  | union ds | concat ds => d ∈ ds
  | determinize edits => .embed d ∈ edits
  | compile _ env _ => (∃ name, env.table name = some d) ∨
      ∃ ask, env.provider = some ask ∧ ∃ name, ask name = .ok (some d)
  | _ => False

/-- The states among the arguments are states of the automaton, and the bounds of ranges of
numerals are words. -/
def InRange : Call → Prop
  | setAccepting d s _ => s < d.size
  | addTransition d source _ target => source < d.size ∧ target < d.size
  | compile _ _ p => p.Bounded
  | _ => True

/-- The call adds a transition on a character that the state has one on. -/
def Overlaps : Call → Prop
  | addTransition d source on _ => ∃ t ∈ d.row source, t.on.Meets on
  | _ => False

/-- What the call gives: an automaton, a name that is not found, or a refusal. -/
def result : Call → Except Misuse (Except UnresolvedReference Dfa)
  | new => pure (pure .empty)
  | emptyWord => pure (pure .emptyWord)
  | anyWord => pure (pure .anyWord)
  | ofRange lo hi => pure (pure (.ofRange lo hi))
  | ofChars cs => pure (pure (.ofChars cs))
  | ofWord word => pure (pure (.ofWord word))
  | numerals a b width => pure (pure (.numerals a.toNat b.toNat width))
  | addState d => pure (pure d.addState)
  | setAccepting d s accepting => pure (pure (d.setAccepting s accepting))
  | addTransition d source on target => return pure (← d.addTransition source on target)
  | union ds => pure (pure (.union ds))
  | concat ds => pure (pure (.concat ds))
  | optional d => pure (pure d.optional)
  | star d => pure (pure d.star)
  | atLeast d min => pure (pure (d.atLeast min))
  | between d min max => pure (pure (d.between min max))
  | inter a b => pure (pure (a.inter b))
  | complement d => pure (pure d.complement)
  | minimized d => pure (pure d.minimized)
  | determinize edits => pure (pure (edits.foldl Nfa.edit .empty).determinize)
  | compile alphabet env p => pure (p.compile alphabet env).outcome.1

/-- What happens when the call is made. -/
def perform : Call → Checked (Except UnresolvedReference Dfa)
  | new => pure (pure .empty)
  | emptyWord => return pure (← Checked.emptyWord)
  | anyWord => return pure (← Checked.anyWord)
  | ofRange lo hi => return pure (← Checked.ofRange lo hi)
  | ofChars cs => return pure (← Checked.ofChars cs)
  | ofWord word => return pure (← Checked.ofWord word)
  | numerals a b width => return pure (← Checked.numerals a b width)
  | addState d => pure (pure d.addState)
  | setAccepting d s accepting => return pure (← Checked.mark d s accepting)
  | addTransition d source on target => return pure (← Checked.addTransition d source on target)
  | union ds => return pure (← Checked.union ds)
  | concat ds => return pure (← Checked.concat ds)
  | optional d => return pure (← Checked.optional d)
  | star d => return pure (← Checked.star d)
  | atLeast d min => return pure (← Checked.atLeast d min)
  | between d min max => return pure (← Checked.between d min max)
  | inter a b => return pure (← Checked.inter a b)
  | complement d => return pure (← Checked.complement d)
  | minimized d => return pure (← Checked.minimized d)
  | determinize edits => do
    return pure (← Checked.determinize (← edits.foldlM Checked.edit .empty))
  | compile alphabet env p => Checked.settled (Checked.compile alphabet env p)

end Call

/-- The automata that calls give: the operands of each are ones that calls before it
gave, and the states it names are in range. -/
inductive Obtained : Dfa → Prop where
  | call {c : Call} {d : Dfa} : (∀ e, c.Operand e → Obtained e) → c.InRange →
      c.perform = pure (pure d) → Obtained d

end PatternAutomata
