import PatternAutomata.Dfa.Basic
import PatternAutomata.Interval.Lists

/-!
# Complement

An automaton that has a transition on every character in every state accepts
exactly the words that lead to an accepting state, so exchanging accepting and
other states complements its language. `totalize` gets there by leading all
missing characters to one more state, which is never left. The state is added even
if nothing is missing.
-/

namespace PatternAutomata

/-- A row with transitions to `dead` on the characters from `c` on that it has none
for. -/
def Row.fill (dead : Nat) : Option Char → Row → Row
  | none, row => row
  | some c, [] => [⟨IntervalSet.upFrom c, dead⟩]
  | some c, t :: row =>
    (((IntervalSet.upFrom c).below? t.on.lo).toList.map (⟨·, dead⟩))
      ++ t :: fill dead (Scalar.next? t.on.hi) row

namespace Dfa

/-- The automaton with a transition on every character in every state; the ones
that are missing lead to a new state without a way out. -/
def totalize (d : Dfa) : Dfa :=
  let dead := d.size
  { d with
    states := d.addState.states.map fun s =>
      { s with row := s.row.fill dead (some Scalar.least) } }

/-- Accepts the words over all characters that the automaton does not accept. -/
def complement (d : Dfa) : Dfa :=
  let total := d.totalize
  { total with states := total.states.map fun s => { s with accepting := !s.accepting } }

variable {d : Dfa} {s : Nat}

/-! ## States -/

@[simp] theorem size_totalize (d : Dfa) : d.totalize.size = d.size + 1 := by
  simp [totalize, addState, size]

theorem state_totalize (hs : s ≤ d.size) :
    d.totalize.states[s]? =
      some ⟨d.isAccepting s, (d.row s).fill d.size (some Scalar.least)⟩ := by
  rw [totalize, List.getElem?_map, addState]
  rcases Nat.lt_or_ge s d.size with hlt | hge
  · have hget : d.states[s]? = some d.states[s] := List.getElem?_eq_getElem hlt
    rw [List.getElem?_append_left hlt, hget, row_eq_of_getElem? hget,
      isAccepting_eq_of_getElem? hget]
    rfl
  · have heq : s = d.states.length := Nat.le_antisymm hs hge
    rw [row_eq_nil hge, isAccepting_eq_false hge, heq, List.getElem?_concat_length]
    rfl

theorem row_totalize (hs : s ≤ d.size) :
    d.totalize.row s = (d.row s).fill d.size (some Scalar.least) :=
  row_eq_of_getElem? (state_totalize hs)

@[simp] theorem isAccepting_totalize (d : Dfa) (s : Nat) :
    d.totalize.isAccepting s = d.isAccepting s := by
  rcases Nat.lt_or_ge d.size s with hlt | hle
  · rw [isAccepting_eq_false (Nat.le_of_lt hlt), isAccepting_eq_false]
    rw [size_totalize]
    exact hlt
  · exact isAccepting_eq_of_getElem? (state_totalize hle)

theorem state_complement (d : Dfa) (s : Nat) :
    d.complement.states[s]? =
      (d.totalize.states[s]?).map fun state => { state with accepting := !state.accepting } := by
  rw [complement, List.getElem?_map]

@[simp] theorem size_complement (d : Dfa) : d.complement.size = d.size + 1 := by
  rw [← size_totalize]
  simp [complement, size]

@[simp] theorem step?_complement (d : Dfa) (s : Nat) :
    d.complement.step? s = d.totalize.step? s := by
  have hrow : d.complement.row s = d.totalize.row s := by
    rw [row, row, state_complement]
    cases d.totalize.states[s]? <;> rfl
  funext c
  rw [step?, step?, hrow]

@[simp] theorem stepAll?_complement (d : Dfa) (s : Nat) (w : List Char) :
    d.complement.stepAll? s w = d.totalize.stepAll? s w := by
  induction w generalizing s with
  | nil => rfl
  | cons c w ih =>
      rw [stepAll?_cons, stepAll?_cons, step?_complement]
      exact Option.bind_congr fun t _ => ih t

theorem isAccepting_complement (hs : s ≤ d.size) :
    d.complement.isAccepting s = !d.isAccepting s := by
  rw [isAccepting, state_complement, state_totalize hs]
  rfl

end Dfa

end PatternAutomata
