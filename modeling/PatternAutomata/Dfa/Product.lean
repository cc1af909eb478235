import PatternAutomata.Dfa.Machine

/-!
# Intersection

The product of two automata runs both at once: its keys are pairs of states, and a
character leads on only if it does so in both. Pairs are numbered as they are met,
the youngest first.
-/

namespace PatternAutomata

/-- The characters that both rows have a transition on, with the pairs of states
that they lead to. -/
def Row.meet (left right : Row) : List (Interval × (Nat × Nat)) :=
  left.flatMap fun l => right.filterMap fun r =>
    (l.on.inter? r.on).map fun common => (common, (l.target, r.target))

/-- The same by one walk along both rows. The transition that ends first is left behind. -/
def Row.sweep : Row → Row → List (Interval × (Nat × Nat))
  | [], _ => []
  | _ :: _, [] => []
  | l :: left, r :: right =>
    ((l.on.inter? r.on).map fun common => (common, (l.target, r.target))).toList ++
      if l.on.hi < r.on.hi then sweep left (r :: right) else sweep (l :: left) right
termination_by left right => left.length + right.length

theorem Row.mem_meet {left right : Row} {e : Interval × (Nat × Nat)} :
    e ∈ left.meet right ↔ ∃ l ∈ left, ∃ r ∈ right,
      l.on.inter? r.on = some e.1 ∧ e.2 = (l.target, r.target) := by
  rw [meet, List.mem_flatMap]
  constructor
  · intro h
    obtain ⟨l, hl, he⟩ := h
    obtain ⟨r, hr, he⟩ := List.mem_filterMap.1 he
    obtain ⟨common, hcommon, rfl⟩ := Option.map_eq_some_iff.1 he
    exact ⟨l, hl, r, hr, hcommon, rfl⟩
  · intro h
    obtain ⟨l, hl, r, hr, hcommon, htargets⟩ := h
    refine ⟨l, hl, List.mem_filterMap.2 ⟨r, hr, ?_⟩⟩
    rw [hcommon, Option.map_some, ← htargets]

namespace Dfa

/-- The machine that runs two automata at once. -/
def pairs (a b : Dfa) : Machine (Nat × Nat) where
  start := (a.start, b.start)
  accepting p := a.isAccepting p.1 && b.isAccepting p.2
  edges p := (a.row p.1).meet (b.row p.2)

/-- Accepts the words that both automata accept. -/
def inter (a b : Dfa) : Dfa := (a.pairs b).toDfa .stack (a.size * b.size)

end Dfa

end PatternAutomata
