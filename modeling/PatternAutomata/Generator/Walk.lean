import PatternAutomata.Dfa.Basic

/-!
# Random walks through an automaton

A walk begins in the start state. In each state it draws one of the characters that
lead on, all equally likely; in an accepting state, stopping is one more choice,
numbered after the characters. A state that nothing leads on from ends the walk
without a draw.

Numbers are drawn from a source of any kind, so that a walk can be followed for
draws that are given as well as for random ones.
-/

/-! ## Numbering the steps of a state

The characters that a state has a transition on are numbered in ascending order. To
find the one with a given number, the transitions are kept together with the sums of
their widths: the transition wanted is the first whose sum is greater. -/

namespace PatternAutomata

/-- The transitions of a state, and for each the number of characters up to its end. -/
structure Weights where
  row : Row
  sums : List Nat
deriving DecidableEq

namespace Weights

/-- The sums of widths along a row, starting from a number. -/
def sumsFrom (before : Nat) : Row → List Nat
  | [] => []
  | t :: row => (before + t.width) :: sumsFrom (before + t.width) row

/-- The weights of a row. -/
def ofRow (row : Row) : Weights := ⟨row, sumsFrom 0 row⟩

/-- The number of characters in all. -/
def total (w : Weights) : Nat := w.sums.getLastD 0

/-- The character with number `n` and the state it leads to. -/
def pick? (w : Weights) (n : Nat) : Option (Char × Nat) :=
  let k := (w.sums.takeWhile (· ≤ n)).length
  let before := if k = 0 then 0 else w.sums.getD (k - 1) 0
  (w.row[k]?).bind fun t => (t.on.nth? (n - before)).map fun c => (c, t.target)

end Weights

/-! ## Walks -/

/-- Why a walk does not end in an accepting state. -/
inductive WalkFault where
  /-- The source of random numbers has nothing left. -/
  | sourceExhausted
  /-- The walk came to a state that neither accepts nor leads on. -/
  | deadEnd (state : Nat)
  /-- No character has the number that was drawn. -/
  | noSuchCharacter (n : Nat)
deriving DecidableEq, Repr

/-- The text for a walk that fails. -/
def WalkFault.message : WalkFault → String
  | .sourceExhausted => "no random numbers left"
  | .deadEnd _ => "non-accepting state without transitions"
  | .noSuchCharacter n => "character index " ++ toString n ++ " out of transition bounds"

namespace Dfa

/-- Goes on with a walk, for at most the given number of states. The characters so
far are in reverse order. -/
def walkOn {σ : Type u} (d : Dfa) (draw? : Nat → σ → Option (Nat × σ)) :
    Nat → List Char → Nat → σ → Except WalkFault (List Char × σ)
  | 0, _, _, _ => .error .sourceExhausted
  | steps + 1, word, s, source =>
    let weights := Weights.ofRow (d.row s)
    let total := weights.total
    if total = 0 then
      if d.isAccepting s then .ok (word.reverse, source) else .error (.deadEnd s)
    else
      match draw? (if d.isAccepting s then total + 1 else total) source with
      | none => .error .sourceExhausted
      | some (n, source) =>
        if n = total then .ok (word.reverse, source)
        else
          match weights.pick? n with
          | some (c, t) => walkOn d draw? steps (c :: word) t source
          | none => .error (.noSuchCharacter n)

/-- A walk from the start state through at most the given number of states. -/
def walk {σ : Type u} (d : Dfa) (draw? : Nat → σ → Option (Nat × σ)) (steps : Nat)
    (source : σ) : Except WalkFault (List Char × σ) :=
  d.walkOn draw? steps [] d.start source

end Dfa

end PatternAutomata
