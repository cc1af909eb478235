import PatternAutomata.Dfa.Minimization
import PatternAutomata.Nfa.Determinization

/-!
# Union, concatenation and repetition

These operations assemble a nondeterministic automaton from copies of their
operands and make it deterministic. An operand may be any automaton: its start may
accept or be returned to, and it may have states that lead nowhere.

The results are not minimal; only `between`, which repeats its step many times,
minimizes on the way.
-/

/-! ## Putting copies of automata together

A nondeterministic automaton is assembled from copies of deterministic ones,
side by side (`alternatives`), one after the other (`chain`), or around the start
state (`loop`). The copies are connected by silent transitions only, and no copy
leads into another except through them. -/

namespace PatternAutomata.Nfa

/-- Makes some states accepting. -/
def acceptAll (a : Nfa) (states : List Nat) : Nfa := states.foldl addAccepting a

/-- Adds silent transitions from some states to another. -/
def connectAll (a : Nfa) (sources : List Nat) (target : Nat) : Nfa :=
  sources.foldl (fun a s => a.addSilent s target) a

/-- Adds copies of some automata, each entered from the start. -/
def alternatives (a : Nfa) : List Dfa → Nfa
  | [] => a
  | d :: ds =>
    let (copy, b) := a.embed d
    alternatives ((b.addSilent a.start copy.start).acceptAll copy.accepting) ds

/-- Adds copies of some automata, the first entered from the given states, each
other one from the ends of the one before. The ends of the last are accepting. -/
def chain (a : Nfa) (ends : List Nat) : List Dfa → Nfa
  | [] => a.acceptAll ends
  | d :: ds =>
    let (copy, b) := a.embed d
    chain (b.connectAll ends copy.start) copy.accepting ds

/-- The copy of an automaton that is entered from the start, which accepts, and
left for it again. -/
def loop (d : Dfa) : Nfa :=
  let start := empty.start
  let (copy, a) := (empty.addAccepting start).embed d
  (a.addSilent start copy.start).connectAll copy.accepting start

end PatternAutomata.Nfa

/-! ## Operations -/

namespace PatternAutomata.Dfa

/-- Accepts the words that one of the automata accepts. -/
def union (ds : List Dfa) : Dfa := (Nfa.empty.alternatives ds).determinize

/-- Accepts the words that are made of one word of each automaton in order. -/
def concat (ds : List Dfa) : Dfa := (Nfa.empty.chain [Nfa.empty.start] ds).determinize

/-- Accepts the empty word as well. -/
def optional (d : Dfa) : Dfa := union [d, emptyWord]

/-- Accepts the words made of any number of words of the automaton. -/
def star (d : Dfa) : Dfa := (Nfa.loop d).determinize

/-- Accepts the words made of at least `min` words of the automaton. -/
def atLeast (d : Dfa) (min : Nat) : Dfa :=
  if min = 0 then d.star else concat (List.replicate min d ++ [d.star])

/-- Accepts the words made of at most `n` words of the automaton. -/
def upTo (d : Dfa) : Nat → Dfa
  | 0 => emptyWord
  | n + 1 => (concat [d, d.upTo n]).optional.minimized

/-- Accepts the words made of `min` to `max` words of the automaton, and none if
the bounds are reversed. -/
def between (d : Dfa) (min max : Nat) : Dfa :=
  if max < min then empty else concat (List.replicate min d ++ [d.upTo (max - min)])

end PatternAutomata.Dfa
