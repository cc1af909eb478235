import PatternAutomata.Proofs.Insertion
import PatternAutomata.Proofs.Runs

/-!
# Editing an automaton state by state

Adding a state, marking one and adding a transition keep an automaton canonical. The
calls that do so find what they look up if the state is in range, and differ in
nothing else from the operations on the list of states.

## Main results

* `Canonical.addState`, `Canonical.setAccepting`, `Canonical.addTransition`: what
  edits keep.
* `Checked.addTransition_eq`: adding a transition by index.
* `Checked.foldlM_addTransition`: adding transitions to one target, in any order.
-/

namespace PatternAutomata

open PatternAutomata.Interval

namespace Dfa

variable {d : Dfa} {s t : Nat} {row : Row}

/-- The automaton with another row for a state. -/
def setRow (d : Dfa) (s : Nat) (row : Row) : Dfa :=
  { d with states := d.states.modify s fun state => { state with row } }

@[simp] theorem size_setRow (d : Dfa) (s : Nat) (row : Row) :
    (d.setRow s row).size = d.size := by
  simp [setRow, size]

theorem row_setRow (d : Dfa) (hs : s < d.size) (row : Row) :
    (d.setRow s row).row s = row := by
  rw [Dfa.row, setRow, List.getElem?_modify, getElem?_states hs]
  simp

theorem row_setRow_of_ne (d : Dfa) (row : Row) (hst : s ≠ t) :
    (d.setRow s row).row t = d.row t := by
  rw [Dfa.row, Dfa.row, setRow, List.getElem?_modify]
  cases d.states[t]? <;> simp [hst]

@[simp] theorem isAccepting_setRow (d : Dfa) (s : Nat) (row : Row) (t : Nat) :
    (d.setRow s row).isAccepting t = d.isAccepting t := by
  rw [isAccepting, isAccepting, setRow, List.getElem?_modify]
  cases d.states[t]? with
  | none => rfl
  | some state => by_cases hst : s = t <;> simp [hst]

@[simp] theorem setRow_setRow (d : Dfa) (s : Nat) (row row' : Row) :
    (d.setRow s row).setRow s row' = d.setRow s row' := by
  rw [setRow, setRow, setRow, List.modify_modify_eq]
  rfl

@[simp] theorem setRow_row (d : Dfa) (s : Nat) : d.setRow s (d.row s) = d := by
  refine congrArg (Dfa.mk d.start) (List.ext_getElem? fun t => ?_)
  rw [List.getElem?_modify]
  cases ht : d.states[t]? with
  | none => rfl
  | some state =>
    by_cases hst : s = t
    · rw [hst, row_eq_of_getElem? ht]
      simp
    · simp [hst]

/-- The row of a member of the list of states is that of a state. -/
theorem exists_row_of_mem {state : State} (h : state ∈ d.states) :
    ∃ s < d.size, state.row = d.row s := by
  obtain ⟨s, hs⟩ := List.mem_iff_getElem?.1 h
  exact ⟨s, (List.getElem?_eq_some_iff.1 hs).1, (row_eq_of_getElem? hs).symm⟩

/-- An automaton is well-formed if its rows are ordered and lead to states. -/
theorem WellFormed.of_rows (hstart : d.start < d.size)
    (hrow : ∀ s < d.size, (d.row s).Ordered ∧ ∀ u ∈ d.row s, u.target < d.size) :
    d.WellFormed := by
  refine ⟨hstart, fun state hstate => ?_, fun state hstate => ?_⟩
  all_goals obtain ⟨s, hs, hstate⟩ := exists_row_of_mem hstate
  · rw [hstate]
    exact (hrow s hs).2
  · rw [hstate]
    exact (hrow s hs).1

/-- An automaton is canonical if its rows are joined and lead to states. -/
theorem Canonical.of_rows (hstart : d.start < d.size)
    (hrow : ∀ s < d.size, (d.row s).Joined ∧ ∀ u ∈ d.row s, u.target < d.size) :
    d.Canonical := by
  have hordered : ∀ s < d.size, (d.row s).Ordered ∧ ∀ u ∈ d.row s, u.target < d.size :=
    fun s hs => ⟨(hrow s hs).1.ordered, (hrow s hs).2⟩
  refine ⟨.of_rows hstart hordered, fun state hstate => ?_⟩
  obtain ⟨s, hs, hstate⟩ := exists_row_of_mem hstate
  rw [hstate]
  exact (hrow s hs).1

theorem Canonical.addState (h : d.Canonical) : d.addState.Canonical := by
  refine .of_rows ?_ fun s _ => ?_
  · rw [size_addState]
    exact Nat.lt_succ_of_lt h.start_lt
  · rw [row_addState, size_addState]
    exact ⟨h.joined_row s, fun u hu => Nat.lt_succ_of_lt (h.target_lt_row hu)⟩

theorem Canonical.setAccepting (h : d.Canonical) (s : Nat) (b : Bool) :
    (d.setAccepting s b).Canonical := by
  refine .of_rows ?_ fun t _ => ?_
  · rw [size_setAccepting]
    exact h.start_lt
  · rw [row_setAccepting, size_setAccepting]
    exact ⟨h.joined_row t, fun u hu => h.target_lt_row hu⟩

theorem Canonical.setRow (h : d.Canonical) (hs : s < d.size) (hjoined : row.Joined)
    (htarget : ∀ u ∈ row, u.target < d.size) : (d.setRow s row).Canonical := by
  refine .of_rows ?_ fun t _ => ?_
  · rw [size_setRow]
    exact h.start_lt
  · rw [size_setRow]
    by_cases hst : s = t
    · rw [← hst, row_setRow d hs]
      exact ⟨hjoined, htarget⟩
    · rw [row_setRow_of_ne d row hst]
      exact ⟨h.joined_row t, fun u hu => h.target_lt_row hu⟩

/-- A transition is refused exactly if the state has one on some of its characters. -/
theorem Canonical.addTransition_cases (h : d.Canonical) (on : Interval) (t : Nat) :
    ((∃ u ∈ d.row s, u.on.Meets on) ∧
      d.addTransition s on t = .error .overlappingTransitions) ∨
    ((¬ ∃ u ∈ d.row s, u.on.Meets on) ∧
      ∃ row, Row.insert? ⟨on, t⟩ (d.row s) = some row ∧
        d.addTransition s on t = .ok (d.setRow s row)) := by
  have hnone := Row.insert?_eq_none_iff (t := ⟨on, t⟩) (h.joined_row s)
  rw [Dfa.addTransition]
  cases hrow : Row.insert? ⟨on, t⟩ (d.row s) with
  | none => exact .inl ⟨hnone.1 hrow, rfl⟩
  | some row =>
    rw [hrow] at hnone
    exact .inr ⟨fun hmeets => Option.some_ne_none row (hnone.2 hmeets), row, rfl, rfl⟩

/-- What a transition that is not refused leaves behind. -/
theorem Canonical.addTransition (h : d.Canonical) (hs : s < d.size) (ht : t < d.size)
    {on : Interval} {e : Dfa} (he : d.addTransition s on t = .ok e) : e.Canonical := by
  rcases h.addTransition_cases (s := s) on t with ⟨-, herror⟩ | ⟨-, row, hrow, hok⟩
  · rw [herror] at he
    cases he
  · rw [hok] at he
    cases he
    obtain ⟨hjoined, htarget⟩ := Row.joined_insert? (h.joined_row s) hrow
    refine h.setRow hs hjoined fun u hu => ?_
    obtain ⟨v, hv, hvu⟩ := htarget u hu
    rw [← hvu]
    rcases List.mem_cons.1 hv with rfl | hv
    · exact ht
    · exact h.target_lt_row hv

end Dfa

namespace Checked

variable {d : Dfa} {s t : Nat} {row : Row} {on : Interval} {is : List Interval}

theorem stateAt_eq (hs : s < d.size) : stateAt d s = pure ⟨d.isAccepting s, d.row s⟩ :=
  entry_eq (Dfa.getElem?_states hs)

theorem rowAt_eq (hs : s < d.size) : rowAt d s = pure (d.row s) := by
  rw [rowAt, stateAt_eq hs, pure_bind]

theorem acceptingAt_eq (hs : s < d.size) : acceptingAt d s = pure (d.isAccepting s) := by
  rw [acceptingAt, stateAt_eq hs, pure_bind]

theorem mark_eq (hs : s < d.size) (b : Bool) : mark d s b = pure (d.setAccepting s b) := by
  rw [mark, stateAt_eq hs, pure_bind]

-- A state that is not in the table is not found.
example : mark .empty 1 true = throw .outOfRange := rfl

theorem addTransition_of_insertRow (hs : s < d.size)
    (hrow : insertRow (d.row s) on t = pure row) :
    addTransition d s on t = pure (d.setRow s row) := by
  rw [addTransition, link, rowAt_eq hs, pure_bind, hrow, pure_bind]
  rfl

/-- Adding a transition by index adds or refuses it as the operation does. -/
theorem addTransition_eq (h : d.Canonical) (hs : s < d.size) (on : Interval) (t : Nat) :
    addTransition d s on t = (d.addTransition s on t).mapError .misuse := by
  rw [addTransition, link, rowAt_eq hs, pure_bind, insertRow_eq (h.joined_row s),
    Dfa.addTransition]
  cases Row.insert? ⟨on, t⟩ (d.row s) <;> rfl

/-- Intervals on which a row leads nowhere are added one after the other. -/
theorem foldlM_insertRow (h : row.Joined) (his : is.Pairwise fun i j => ∀ c ∈ i, c ∉ j)
    (hfree : ∀ i ∈ is, ∀ c ∈ i, row.step? c = none) (target : Nat) :
    ∃ row', is.foldlM (fun row i => insertRow row i target) row = pure row' ∧ row'.Joined ∧
      ∀ c, row'.step? c = if ∃ i ∈ is, c ∈ i then some target else row.step? c := by
  induction is generalizing row with
  | nil => exact ⟨row, rfl, h, fun c => by simp⟩
  | cons i is ih =>
    obtain ⟨hi, his⟩ := List.pairwise_cons.1 his
    have hclear : ¬ ∃ u ∈ row, u.on.Meets i := by
      rintro ⟨u, hu, c, hcu, hci⟩
      exact Row.step?_eq_none_iff.1 (hfree i (by simp) c hci) u hu hcu
    obtain ⟨row₁, hrow₁⟩ := Option.ne_none_iff_exists'.1
      (mt (Row.insert?_eq_none_iff (t := ⟨i, target⟩) h).1 hclear)
    have hstep := Row.step?_insert? h hrow₁
    obtain ⟨row', hrow', hjoined, hstep'⟩ := ih (Row.joined_insert? h hrow₁).1 his
      fun j hj c hc => by
        rw [hstep, if_neg fun hci => hi j hj c hci hc]
        exact hfree j (List.mem_cons_of_mem i hj) c hc
    refine ⟨row', ?_, hjoined, fun c => ?_⟩
    · rw [List.foldlM_cons, insertRow_of_insert? h hrow₁, pure_bind, hrow']
    · rw [hstep', hstep]
      by_cases hc : c ∈ i <;> simp [hc]

theorem foldlM_addTransition {row' : Row} (hs : s < d.size)
    (hrow : is.foldlM (fun row i => insertRow row i t) (d.row s) = pure row') :
    is.foldlM (fun d i => addTransition d s i t) d = pure (d.setRow s row') := by
  induction is generalizing d with
  | nil =>
    obtain rfl : d.row s = row' := Except.ok.inj hrow
    rw [List.foldlM_nil, Dfa.setRow_row]
  | cons i is ih =>
    rw [List.foldlM_cons] at hrow ⊢
    cases hrow₁ : insertRow (d.row s) i t with
    | error f =>
      rw [hrow₁] at hrow
      cases hrow
    | ok row₁ =>
      rw [hrow₁] at hrow
      rw [addTransition_of_insertRow hs hrow₁, pure_bind,
        ih (by rwa [Dfa.size_setRow]) (by rw [Dfa.row_setRow d hs]; exact hrow),
        Dfa.setRow_setRow]

end Checked

end PatternAutomata
