import PatternAutomata.Checked.Elementary
import PatternAutomata.Checked.Minimization
import PatternAutomata.Dfa.Composition
import PatternAutomata.Dfa.Numerals

/-!
# Composed automata by single calls

Copying an automaton looks up the new numbers of its states, and laying the
transitions of several states over each other replaces ranges of entries. The
deterministic automaton is drawn set by set; the numerals of a fixed width are drawn
digit by digit, below one digit before the next.

The bounds of a range of numerals are words of 32 bits. They are compared with powers of
ten in words of 64 bits, and the exponent may be a width that no such power has: the power
then is the greatest word. A width is taken as a word of 32 bits where it is an exponent.
-/

namespace PatternAutomata.Checked

/-! ## Nondeterministic automata -/

/-- Adds a transition on the characters of an interval. -/
def connect (a : Nfa) (source : Nat) (on : Interval) (target : Nat) : Checked Nfa := do
  let fan ← insertMap (· ∪ ·) ((a.fan? source).getD ∅) on {target}
  return { a with fans := a.fans.insert source fan }

/-- Adds the transitions of a row, source and targets replaced by their copies. -/
def addRow (a : Nfa) (copies : List Nat) (source : Nat) (row : Row) : Checked Nfa :=
  row.foldlM (fun a t => do
    connect a (← entry copies source) (← ofBounds t.on.lo t.on.hi) (← entry copies t.target)) a

/-- Copies the states of an automaton to fresh states, in order. -/
def embed (a : Nfa) (d : Dfa) : Checked (Nfa.Embedding × Nfa) := do
  let states := List.range d.size
  let copies := states.map (a.last + 1 + ·)
  let grown := { a with last := a.last + d.size }
  let b ← states.foldlM (fun a s => do addRow a copies s (← rowAt d s)) grown
  let start ← entry copies d.start
  let accepting ← (← states.filterM (acceptingAt d)).mapM (entry copies)
  return (⟨start, accepting⟩, b)

/-- Adds copies of some automata, each entered from the start. -/
def alternatives (a : Nfa) : List Dfa → Checked Nfa
  | [] => pure a
  | d :: ds => do
    let (copy, b) ← embed a d
    alternatives ((b.addSilent a.start copy.start).acceptAll copy.accepting) ds

/-- Adds copies of some automata one after the other. -/
def chain (a : Nfa) (ends : List Nat) : List Dfa → Checked Nfa
  | [] => pure (a.acceptAll ends)
  | d :: ds => do
    let (copy, b) ← embed a d
    chain (b.connectAll ends copy.start) copy.accepting ds

/-- The copy of an automaton that is entered from the start and left for it. -/
def loop (d : Dfa) : Checked Nfa := do
  let start := Nfa.empty.start
  let (copy, a) ← embed (Nfa.empty.addAccepting start) d
  return (a.addSilent start copy.start).connectAll copy.accepting start

/-! ## Determinization -/

/-- The transitions of some states laid over each other. -/
def overlay (a : Nfa) (states : StateSet) : Checked Fan :=
  states.toList.foldlM
    (fun all s => (((a.fan? s).getD ∅).entries).foldlM
      (fun all e => insertMap (· ∪ ·) all e.1 e.2) all)
    ∅

/-- The machine of the sets of states that the automaton can be in. -/
def subsets (a : Nfa) : CheckedMachine StateSet where
  accepting states := pure (states.toList.any a.isAccepting)
  edges states := return (← overlay a states).entries.map fun e => (e.1, a.closure e.2)

/-- The deterministic automaton for the same words. -/
def determinize (a : Nfa) : Checked Dfa := do
  let start := a.closure {a.start}
  let bound := Nat.pow 2 a.inhabitable.length
  return (← (Draft.init start).build (subsets a) insertRow .stack bound [start]).dfa

/-! ## Union, concatenation and repetition -/

/-- Accepts the words that one of the automata accepts. -/
def union (ds : List Dfa) : Checked Dfa := do determinize (← alternatives .empty ds)

/-- Accepts the words that are made of one word of each automaton in order. -/
def concat (ds : List Dfa) : Checked Dfa := do
  determinize (← chain .empty [Nfa.empty.start] ds)

/-- Accepts the empty word as well. -/
def optional (d : Dfa) : Checked Dfa := do union [d, ← emptyWord]

/-- Accepts the words made of any number of words of the automaton. -/
def star (d : Dfa) : Checked Dfa := do determinize (← loop d)

/-- Accepts the words made of at least `min` words of the automaton. -/
def atLeast (d : Dfa) (min : Nat) : Checked Dfa :=
  if min = 0 then star d else do concat (List.replicate min d ++ [← star d])

/-- Accepts the words made of at most `n` words of the automaton. -/
def upTo (d : Dfa) : Nat → Checked Dfa
  | 0 => emptyWord
  | n + 1 => do minimized (← optional (← concat [d, ← upTo d n]))

/-- Accepts the words made of `min` to `max` words of the automaton, and none if the
bounds are reversed. -/
def between (d : Dfa) (min max : Nat) : Checked Dfa :=
  if max < min then pure .empty
  else do concat (List.replicate min d ++ [← upTo d (max - min)])

/-! ## Numerals -/

/-- The digit of a bound that has a say, and a default for one that has not. -/
def digit (bound : Option (List Nat)) (default : Nat) : Checked Nat :=
  match bound with
  | some digits => entry digits 0
  | none => pure default

/-- The machine that reads digits from a window on. -/
def window : CheckedMachine Dfa.Window where
  accepting v := pure (v.width == 0)
  edges v :=
    if v.width = 0 then pure []
    else do
      let first ← digit v.lower 0
      let last ← digit v.upper 9
      ((List.range (last + 1)).drop first).mapM fun d => do
        let on ← singleton (Decimal.digitChar d)
        return (on, ⟨v.width - 1, if d = first then v.lower.map List.tail else none,
          if d = last then v.upper.map List.tail else none⟩)

/-- The power of ten with the given exponent. It wraps around. -/
def tenPow (k : Nat) : UInt64 := .ofNat (Nat.pow 10 k)

/-- The greatest number of the given width, as far as the power of ten after it is a
word. -/
def greatestOfWidth (width : Nat) : UInt64 :=
  .ofNat (min (Nat.pow 10 (UInt32.ofNat width).toNat) (UInt64.size - 1) - 1)

/-- Accepts the numerals of exactly `width` digits for the numbers `lo, …, hi` that are
not beyond the greatest one of the width. -/
def fixedWidth (width : Nat) (lo hi : UInt64) : Checked Dfa :=
  let hi := min hi (greatestOfWidth width)
  if hi < lo then pure .empty
  else do
    let w : Dfa.Window :=
      ⟨width, some (Decimal.padded width lo.toNat), some (Decimal.padded width hi.toNat)⟩
    return (← (Draft.init w).expand window insertRow width w).dfa

/-- Accepts the numerals of `k` digits, without zeros in front, for the numbers
`lo, …, hi`, if there are any. -/
def ofLength? (lo hi : UInt64) (k : Nat) : Checked (Option Dfa) :=
  let least := if k = 1 then 0 else tenPow (k - 1)
  let lo := max lo least
  let hi := min hi (tenPow k - 1)
  if lo ≤ hi then do return some (← fixedWidth k lo hi) else pure none

/-- Accepts the numerals for the numbers between two words, in either order. -/
def numerals (a b : UInt32) (width : Nat) : Checked Dfa := do
  let lo := (min a b).toUInt64
  let hi := (max a b).toUInt64
  let length := Decimal.length hi.toNat
  if width = 0 then
    let lengths ← ((List.range length).map (· + 1)).filterMapM (ofLength? lo hi)
    concat [← star (← ofRange '0' '0'), ← union lengths]
  else fixedWidth (max width length) lo hi

end PatternAutomata.Checked
