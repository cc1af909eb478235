import PatternAutomata.Dfa.Machine
import PatternAutomata.Proofs.Explorations
import PatternAutomata.Proofs.Runs

/-!
# Tabulating a machine keeps its words

An automaton made from a machine has one state per key of a list. If the list has
the start and is closed under edges, the number of a key stands for the key in every
run, so the automaton accepts the words of the machine. It is canonical as well:
targets are numbers of keys of the list, and rows have been joined.

`Machine.toDfa` gets its list by exploration, which is closed as soon as the bound
is at least the number of keys of some finite set that edges do not leave.

## Main results

* `Closed.accepts_tabulate`, `Closed.canonical_tabulate`: tabulation for a closed
  list of keys.
* `Confined.accepts_toDfa`, `Confined.canonical_toDfa`: the same for the keys that
  are found by exploration.
-/

namespace PatternAutomata.Machine

open PatternAutomata.Interval

variable {κ : Type u} {m : Machine κ} {k : κ} {c : Char}

/-! ## Words of a machine -/

theorem step?_eq_valueAt? (m : Machine κ) (k : κ) (c : Char) :
    m.step? k c = valueAt? (m.edges k) c := rfl

@[simp] theorem stepAll?_cons (m : Machine κ) (k : κ) (c : Char) (w : List Char) :
    m.stepAll? k (c :: w) = (m.step? k c).bind fun l => m.stepAll? l w := rfl

@[simp] theorem acceptsFrom_nil (m : Machine κ) (k : κ) :
    m.acceptsFrom k [] = m.accepting k := rfl

theorem acceptsFrom_cons (m : Machine κ) (k : κ) (c : Char) (w : List Char) :
    m.acceptsFrom k (c :: w) = (m.step? k c).any fun l => m.acceptsFrom l w := by
  rw [acceptsFrom, stepAll?_cons]
  cases m.step? k c <;> rfl

/-- A step leads to the end of an edge. -/
theorem mem_successors_of_step? {l : κ} (h : m.step? k c = some l) : l ∈ m.successors k := by
  obtain ⟨i, hi, -⟩ := exists_mem_of_valueAt? h
  exact List.mem_map.2 ⟨(i, l), hi, rfl⟩

/-! ## Closed lists of keys -/

/-- A list of keys that has the start and that edges do not leave; the intervals of
the edges ascend. -/
structure Closed (m : Machine κ) (keys : List κ) : Prop where
  start_mem : m.start ∈ keys
  closed : ∀ k ∈ keys, ∀ l ∈ m.successors k, l ∈ keys
  ascending : ∀ k ∈ keys, Ascending ((m.edges k).map (·.1))

variable {keys : List κ}

theorem Closed.stepAll?_mem (h : m.Closed keys) (hk : k ∈ keys) {w : List Char} {l : κ}
    (hrun : m.stepAll? k w = some l) : l ∈ keys := by
  induction w generalizing k with
  | nil =>
      cases hrun
      exact hk
  | cons c w ih =>
      rw [stepAll?_cons, Option.bind_eq_some_iff] at hrun
      obtain ⟨l', hstep, hrun⟩ := hrun
      exact ih (h.closed k hk l' (mem_successors_of_step? hstep)) hrun

/-- The start lies in a finite set of keys that edges do not leave, and the bound is
at least the size of the set; the intervals of the edges ascend. -/
structure Confined (m : Machine κ) (bound : Nat) (univ : List κ) : Prop where
  start_mem : m.start ∈ univ
  closed : ∀ k ∈ univ, ∀ l ∈ m.successors k, l ∈ univ
  ascending : ∀ k ∈ univ, Ascending ((m.edges k).map (·.1))
  length_le : univ.length ≤ bound

variable {bound : Nat} {univ : List κ}

theorem Confined.enough (h : m.Confined bound univ) :
    Exploration.Enough m.successors bound [m.start] univ where
  starts_subset := fun k hk => by
    rw [List.mem_singleton] at hk
    exact hk ▸ h.start_mem
  closed := h.closed
  length_le := h.length_le

theorem Confined.mem_of_reaches (h : m.Confined bound univ)
    (hk : Exploration.Reaches m.successors [m.start] k) : k ∈ univ := by
  induction hk with
  | start hk => exact h.enough.starts_subset hk
  | step _ hl ih => exact h.closed _ ih _ hl

/-! ## Tabulation -/

variable [DecidableEq κ]

theorem getElem?_idxOf (hk : k ∈ keys) : keys[keys.idxOf k]? = some k := by
  rw [List.getElem?_eq_getElem (List.idxOf_lt_length_of_mem hk), List.getElem_idxOf]

theorem state_tabulate (hk : k ∈ keys) :
    (m.tabulate keys).states[keys.idxOf k]? = some ⟨m.accepting k, m.row keys k⟩ := by
  rw [tabulate, List.getElem?_map, getElem?_idxOf hk]
  rfl

@[simp] theorem size_tabulate (m : Machine κ) (keys : List κ) :
    (m.tabulate keys).size = keys.length := by
  simp [tabulate, Dfa.size]

theorem row_tabulate (hk : k ∈ keys) :
    (m.tabulate keys).row (keys.idxOf k) = m.row keys k :=
  Dfa.row_eq_of_getElem? (state_tabulate hk)

theorem isAccepting_tabulate (hk : k ∈ keys) :
    (m.tabulate keys).isAccepting (keys.idxOf k) = m.accepting k :=
  Dfa.isAccepting_eq_of_getElem? (state_tabulate hk)

/-- The edges of a key with their targets numbered, before they are joined. -/
def numbered (m : Machine κ) (keys : List κ) (k : κ) : Row :=
  (m.edges k).map fun e => ⟨e.1, keys.idxOf e.2⟩

theorem ordered_numbered {m : Machine κ} {k : κ}
    (h : Ascending ((m.edges k).map (·.1))) (keys : List κ) :
    (m.numbered keys k).Ordered := by
  rw [Row.Ordered, numbered, List.map_map]
  exact h

@[simp] theorem step?_numbered (m : Machine κ) (keys : List κ) (k : κ) (c : Char) :
    (m.numbered keys k).step? c = (m.step? k c).map keys.idxOf := by
  rw [Row.step?_eq_valueAt?, step?_eq_valueAt?, ← valueAt?_map, Row.entries, numbered,
    List.map_map]
  rfl

/-- A step of the automaton is a step between keys. -/
theorem Closed.step?_tabulate (h : m.Closed keys) (hk : k ∈ keys) (c : Char) :
    (m.tabulate keys).step? (keys.idxOf k) c = (m.step? k c).map keys.idxOf := by
  rw [Dfa.step?, row_tabulate hk, row, ← numbered,
    Row.step?_coalesce (ordered_numbered (h.ascending k hk) keys), step?_numbered]

theorem Closed.stepAll?_tabulate (h : m.Closed keys) (hk : k ∈ keys) (w : List Char) :
    (m.tabulate keys).stepAll? (keys.idxOf k) w = (m.stepAll? k w).map keys.idxOf := by
  induction w generalizing k with
  | nil => rfl
  | cons c w ih =>
      rw [Dfa.stepAll?_cons, stepAll?_cons, h.step?_tabulate hk]
      cases hstep : m.step? k c with
      | none => rfl
      | some l => exact ih (h.closed k hk l (mem_successors_of_step? hstep))

theorem Closed.acceptsFrom_tabulate (h : m.Closed keys) (hk : k ∈ keys) (w : List Char) :
    (m.tabulate keys).acceptsFrom (keys.idxOf k) w = m.acceptsFrom k w := by
  rw [Dfa.acceptsFrom, acceptsFrom, h.stepAll?_tabulate hk]
  cases hrun : m.stepAll? k w with
  | none => rfl
  | some l => exact isAccepting_tabulate (h.stepAll?_mem hk hrun)

/-- The automaton accepts the words of the machine. -/
theorem Closed.accepts_tabulate (h : m.Closed keys) (w : List Char) :
    (m.tabulate keys).accepts w = m.accepts w :=
  h.acceptsFrom_tabulate h.start_mem w

/-- The automaton is well-formed and its rows are joined. -/
theorem Closed.canonical_tabulate (h : m.Closed keys) : (m.tabulate keys).Canonical := by
  have hrow : ∀ state ∈ (m.tabulate keys).states, ∃ k ∈ keys, state.row = m.row keys k := by
    intro state hstate
    obtain ⟨k, hk, rfl⟩ := List.mem_map.1 hstate
    exact ⟨k, hk, rfl⟩
  have hjoined : ∀ state ∈ (m.tabulate keys).states, state.row.Joined := by
    intro state hstate
    obtain ⟨k, hk, hrow⟩ := hrow state hstate
    rw [hrow]
    exact Row.joined_coalesce (ordered_numbered (h.ascending k hk) keys)
  refine
    { start_lt := ?_
      target_lt := ?_
      ordered := fun state hstate => (hjoined state hstate).ordered
      joined := hjoined }
  · rw [size_tabulate]
    exact List.idxOf_lt_length_of_mem h.start_mem
  · intro state hstate t ht
    obtain ⟨k, hk, hrow⟩ := hrow state hstate
    rw [hrow] at ht
    obtain ⟨u, hu, htarget⟩ := Row.target_mem_coalesce ht
    obtain ⟨e, he, rfl⟩ := List.mem_map.1 hu
    rw [size_tabulate, ← htarget]
    exact List.idxOf_lt_length_of_mem (h.closed k hk e.2 (List.mem_map_of_mem he))

/-! ## Keys found by exploration -/

/-- The keys found by exploration are closed. -/
theorem Confined.closed_explore (h : m.Confined bound univ) (d : Exploration.Discipline) :
    m.Closed (Exploration.explore d m.successors bound [m.start]) where
  start_mem := Exploration.mem_explore_of_mem (by simp)
  closed := h.enough.explore_closed
  ascending := fun k hk => h.ascending k (h.mem_of_reaches (h.enough.mem_explore_iff.1 hk))

theorem Confined.accepts_toDfa (h : m.Confined bound univ) (d : Exploration.Discipline)
    (w : List Char) : (m.toDfa d bound).accepts w = m.accepts w :=
  (h.closed_explore d).accepts_tabulate w

theorem Confined.canonical_toDfa (h : m.Confined bound univ) (d : Exploration.Discipline) :
    (m.toDfa d bound).Canonical :=
  (h.closed_explore d).canonical_tabulate

end PatternAutomata.Machine
