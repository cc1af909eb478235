import PatternAutomata.Proofs.Rows

/-!
# Runs of deterministic automata

A run is a sequence of steps, so what one step keeps, a run keeps: the states of a
well-formed automaton stay in range, and a word is read in two parts by reading one
after the other.

## Main results

* `stepAll?_append`, `acceptsFrom_append`: reading a word in two parts.
* `WellFormed.stepAll?_lt`: runs stay within the automaton.
-/

namespace PatternAutomata.Dfa

variable {d : Dfa} {s t : Nat} {c : Char} {v w : List Char}

/-! ## States -/

/-- The row of a state is that of a member of the list of states, or empty. -/
theorem row_mem_or_nil (d : Dfa) (s : Nat) : (∃ state ∈ d.states, d.row s = state.row) ∨
    d.row s = [] := by
  rcases Nat.lt_or_ge s d.size with hs | hs
  · left
    exact ⟨d.states[s], List.getElem_mem hs, row_eq_of_getElem? (List.getElem?_eq_getElem hs)⟩
  · right
    exact row_eq_nil hs

theorem WellFormed.ordered_row (h : d.WellFormed) (s : Nat) : (d.row s).Ordered := by
  rcases row_mem_or_nil d s with ⟨state, hstate, hrow⟩ | hrow
  · rw [hrow]
    exact h.ordered state hstate
  · rw [hrow]
    exact List.Pairwise.nil

theorem Canonical.joined_row (h : d.Canonical) (s : Nat) : (d.row s).Joined := by
  rcases row_mem_or_nil d s with ⟨state, hstate, hrow⟩ | hrow
  · rw [hrow]
    exact h.joined state hstate
  · rw [hrow]
    exact List.Pairwise.nil

theorem WellFormed.target_lt_row (h : d.WellFormed) {u : Transition} (hu : u ∈ d.row s) :
    u.target < d.size := by
  rcases row_mem_or_nil d s with ⟨state, hstate, hrow⟩ | hrow
  · rw [hrow] at hu
    exact h.target_lt state hstate u hu
  · rw [hrow] at hu
    cases hu

theorem WellFormed.step?_lt (h : d.WellFormed) (hstep : d.step? s c = some t) :
    t < d.size := by
  obtain ⟨u, hu, -, rfl⟩ := Row.exists_mem_of_step? hstep
  exact h.target_lt_row hu

/-- Two automata with the same start and the same states, one by one, are equal. -/
theorem eq_of_rows {d e : Dfa} (hstart : d.start = e.start) (hsize : d.size = e.size)
    (haccept : ∀ s < d.size, d.isAccepting s = e.isAccepting s)
    (hrow : ∀ s < d.size, d.row s = e.row s) : d = e := by
  have hstates : d.states = e.states := by
    refine List.ext_getElem hsize fun s hs hs' => ?_
    have h1 := haccept s hs
    have h2 := hrow s hs
    rw [isAccepting_eq_of_getElem? (List.getElem?_eq_getElem hs),
      isAccepting_eq_of_getElem? (List.getElem?_eq_getElem hs')] at h1
    rw [row_eq_of_getElem? (List.getElem?_eq_getElem hs),
      row_eq_of_getElem? (List.getElem?_eq_getElem hs')] at h2
    cases hd : d.states[s]
    cases he : e.states[s]
    rw [hd, he] at h1 h2
    cases h1
    cases h2
    rfl
  cases d
  cases e
  cases hstart
  cases hstates
  rfl

/-! ## Words -/

theorem stepAll?_append (d : Dfa) (s : Nat) (v w : List Char) :
    d.stepAll? s (v ++ w) = (d.stepAll? s v).bind fun t => d.stepAll? t w := by
  induction v generalizing s with
  | nil => rfl
  | cons c v ih =>
      rw [List.cons_append, stepAll?_cons, stepAll?_cons]
      cases d.step? s c with
      | none => rfl
      | some t => exact ih t

theorem acceptsFrom_append (h : d.stepAll? s v = some t) (w : List Char) :
    d.acceptsFrom s (v ++ w) = d.acceptsFrom t w := by
  rw [acceptsFrom, stepAll?_append, h]
  rfl

theorem acceptsFrom_iff :
    d.acceptsFrom s w = true ↔ ∃ t, d.stepAll? s w = some t ∧ d.isAccepting t = true := by
  rw [acceptsFrom, Option.any_eq_true]

/-- A beginning of an accepted word can be read. -/
theorem exists_stepAll?_of_acceptsFrom (h : d.acceptsFrom s (v ++ w) = true) :
    ∃ t, d.stepAll? s v = some t ∧ d.acceptsFrom t w = true := by
  obtain ⟨u, hu, haccept⟩ := acceptsFrom_iff.1 h
  rw [stepAll?_append, Option.bind_eq_some_iff] at hu
  obtain ⟨t, ht, htu⟩ := hu
  exact ⟨t, ht, acceptsFrom_iff.2 ⟨u, htu, haccept⟩⟩

theorem WellFormed.stepAll?_lt (h : d.WellFormed) (hs : s < d.size)
    (hrun : d.stepAll? s w = some t) : t < d.size := by
  induction w generalizing s with
  | nil =>
      cases hrun
      exact hs
  | cons c w ih =>
      rw [stepAll?_cons, Option.bind_eq_some_iff] at hrun
      obtain ⟨u, hu, hrun⟩ := hrun
      exact ih (h.step?_lt hu) hrun

end PatternAutomata.Dfa
