import PatternAutomata.Checked.Basic
import PatternAutomata.Exploration

/-!
# Automata drawn state by state

Determinization, products and quotients draw their automaton while they discover its
states: a key that is met for the first time gets a state without transitions, and
the transitions are added when the key's turn comes. A `Draft` is what there is of
the automaton in between, together with the keys that have a state. The states have
the indices of their keys as numbers.

`build` keeps the keys that wait in a list and draws one after the other. `expand`
draws the states below a key before it adds the key's next transition.
-/

namespace PatternAutomata

/-- A deterministic machine whose keys are looked up by calls that can go wrong. -/
structure CheckedMachine (κ : Type) where
  accepting : κ → Checked Bool
  edges : κ → Checked (List (Interval × κ))

/-- The keys met so far, and the automaton with a state for each of them. -/
structure Draft (κ : Type) where
  keys : List κ
  dfa : Dfa

namespace Draft

variable {κ : Type}

/-- The draft with a state for the first key. -/
def init (k : κ) : Draft κ := ⟨[k], .empty⟩

variable [DecidableEq κ]

/-- Gives a key a state if it has none. -/
def visit (x : Draft κ) (k : κ) : Draft κ :=
  if k ∈ x.keys then x else ⟨x.keys ++ [k], x.dfa.addState⟩

/-- Makes the state of a key accepting, or not accepting. -/
def mark (x : Draft κ) (k : κ) (accepting : Bool) : Checked (Draft κ) := do
  let s ← Checked.number x.keys k
  return ⟨x.keys, ← Checked.mark x.dfa s accepting⟩

/-- Adds a transition between the states of two keys in the given way. -/
def link (attach : Row → Interval → Nat → Checked Row) (x : Draft κ) (k : κ) (on : Interval)
    (target : κ) : Checked (Draft κ) := do
  let s ← Checked.number x.keys k
  let t ← Checked.number x.keys target
  return ⟨x.keys, ← Checked.link attach x.dfa s on t⟩

/-- Adds the transitions of a key, with states for targets that had none. -/
def follow (attach : Row → Interval → Nat → Checked Row) (k : κ) (x : Draft κ)
    (edges : List (Interval × κ)) : Checked (Draft κ) :=
  edges.foldlM (fun x e => (x.visit e.2).link attach k e.1 e.2) x

/-- Draws the states of the keys that wait, at most `bound` of them, and of those met
on the way. -/
def build (m : CheckedMachine κ) (attach : Row → Interval → Nat → Checked Row)
    (d : Exploration.Discipline) : Nat → List κ → Draft κ → Checked (Draft κ)
  | 0, _, x => pure x
  | _ + 1, [], x => pure x
  | bound + 1, k :: pending, x => do
    let y ← x.mark k (← m.accepting k)
    let y ← y.follow attach k (← m.edges k)
    build m attach d bound (d.enqueue (y.keys.drop x.keys.length) pending) y

/-- Draws the state of a key and the new states below it along at most `height`
edges, depth first. -/
def expand (m : CheckedMachine κ) (attach : Row → Interval → Nat → Checked Row) :
    Nat → κ → Draft κ → Checked (Draft κ)
  | 0, k, x => do x.mark k (← m.accepting k)
  | height + 1, k, x => do
    let x ← x.mark k (← m.accepting k)
    (← m.edges k).foldlM (fun x e =>
      (if e.2 ∈ x.keys then pure x else expand m attach height e.2 (x.visit e.2)) >>= fun x =>
        x.link attach k e.1 e.2) x

end Draft

/-! ## Loops that go on while something waits

An exploration and the drawing of an automaton are loops: what waits is taken one by one,
and taking it may let more wait. `Exploration.run` and `Draft.build` break off after a
given number of rounds, so it does not show in their results whether something was still
waiting. `Drains` is the loop without such a number. It has a proof only if there comes a
point at which nothing waits any more, and all calls up to there went well. -/

open Exploration

/-- Taking what waits one by one comes to an end. A step changes the state of the loop,
from the first given one to the last, and lets further nodes wait. -/
inductive Drains {κ : Type u} {σ : Type v} (d : Discipline)
    (step : κ → σ → Checked (σ × List κ)) : List κ → σ → σ → Prop where
  | done (x : σ) : Drains d step [] x x
  | next {k : κ} {pending new : List κ} {x y z : σ} :
      step k x = pure (y, new) → Drains d step (d.enqueue new pending) y z →
      Drains d step (k :: pending) x z

/-- Looks at a node: its successors that were not met before are met and have to wait. -/
def Exploration.look {κ : Type u} [DecidableEq κ] (successors : κ → List κ) (k : κ)
    (seen : List κ) : Checked (List κ × List κ) :=
  let new := fresh seen (successors k)
  return (seen ++ new, new)

/-- Draws the state of a key; the keys that it gives a state have to wait. -/
def Draft.draw {κ : Type} [DecidableEq κ] (m : CheckedMachine κ)
    (attach : Row → Interval → Nat → Checked Row) (k : κ) (x : Draft κ) :
    Checked (Draft κ × List κ) := do
  let y ← x.mark k (← m.accepting k)
  let y ← y.follow attach k (← m.edges k)
  return (y, y.keys.drop x.keys.length)

end PatternAutomata
