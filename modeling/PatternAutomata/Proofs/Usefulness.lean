import PatternAutomata.Dfa.Minimization
import PatternAutomata.Proofs.Explorations
import PatternAutomata.Proofs.Runs

/-!
# Useful states

Reachability in the graph of an automaton is about words: the start leads to a state
if some word does, and a state leads to acceptance if it accepts some word. The
states with both properties are the useful ones, and dropping the others changes no
word of the automaton.

`Trim` is what the automata are that minimization works on: well-formed, and without
states that are not useful.

## Main results

* `mem_reachable_iff`, `mem_productive_iff`, `mem_useful_iff`: the explorations in
  terms of words.
* `WellFormed.trim_of_trim?`: what remains is trim and accepts the same words.
* `isEmpty_iff`: the test for emptiness.
-/

namespace PatternAutomata.Dfa

open Exploration

variable {d : Dfa} {s t : Nat}

/-- Some word leads from the start to the state. -/
def Reached (d : Dfa) (s : Nat) : Prop := ∃ u, d.stepAll? d.start u = some s

/-- Some word is accepted from the state. -/
def Productive (d : Dfa) (s : Nat) : Prop := ∃ v, d.acceptsFrom s v = true

theorem Reached.step {c : Char} (h : d.Reached s) (hstep : d.step? s c = some t) :
    d.Reached t := by
  obtain ⟨u, hu⟩ := h
  refine ⟨u ++ [c], ?_⟩
  rw [stepAll?_append, hu, Option.bind_some, stepAll?_cons, hstep]
  rfl

theorem Productive.of_step {c : Char} (h : d.Productive t) (hstep : d.step? s c = some t) :
    d.Productive s := by
  obtain ⟨v, hv⟩ := h
  exact ⟨c :: v, acceptsFrom_cons_iff.2 ⟨t, hstep, hv⟩⟩

/-! ## The graph of an automaton -/

/-- An edge of the graph is a step. -/
theorem WellFormed.mem_successors_iff (h : d.WellFormed) :
    t ∈ d.successors s ↔ ∃ c, d.step? s c = some t := by
  rw [successors, List.mem_map]
  constructor
  · intro ht
    obtain ⟨u, hu, rfl⟩ := ht
    exact ⟨u.on.lo, (Row.step?_eq_some_iff (h.ordered_row s)).2 ⟨u, hu, u.on.lo_mem, rfl⟩⟩
  · intro hc
    obtain ⟨c, hc⟩ := hc
    obtain ⟨u, hu, -, htarget⟩ := Row.exists_mem_of_step? hc
    exact ⟨u, hu, htarget⟩

theorem WellFormed.enough_successors (h : d.WellFormed) :
    Enough d.successors d.size [d.start] (List.range d.size) where
  starts_subset := fun k hk => by
    rw [List.mem_singleton] at hk
    exact hk ▸ List.mem_range.2 h.start_lt
  closed := fun _ _ l hl => by
    obtain ⟨c, hc⟩ := h.mem_successors_iff.1 hl
    exact List.mem_range.2 (h.step?_lt hc)
  length_le := by simp

theorem WellFormed.reaches_of_stepAll? (h : d.WellFormed) {starts : List Nat} {u : List Char}
    (hs : Reaches d.successors starts s) (hu : d.stepAll? s u = some t) :
    Reaches d.successors starts t := by
  induction u generalizing s with
  | nil =>
      cases hu
      exact hs
  | cons c u ih =>
      rw [stepAll?_cons, Option.bind_eq_some_iff] at hu
      obtain ⟨m, hstep, hu⟩ := hu
      exact ih (.step hs (h.mem_successors_iff.2 ⟨c, hstep⟩)) hu

theorem WellFormed.reaches_iff (h : d.WellFormed) :
    Reaches d.successors [d.start] s ↔ d.Reached s := by
  constructor
  · intro hs
    induction hs with
    | start hk =>
        rw [List.mem_singleton] at hk
        exact ⟨[], hk ▸ rfl⟩
    | step _ hl ih =>
        obtain ⟨c, hc⟩ := h.mem_successors_iff.1 hl
        exact ih.step hc
  · intro hs
    obtain ⟨u, hu⟩ := hs
    exact h.reaches_of_stepAll? (.start (by simp)) hu

theorem WellFormed.mem_reachable_iff (h : d.WellFormed) : s ∈ d.reachable ↔ d.Reached s := by
  rw [reachable, h.enough_successors.mem_explore_iff, h.reaches_iff]

/-- The automaton is taken to be empty if it accepts no word. -/
theorem WellFormed.isEmpty_iff (h : d.WellFormed) :
    d.isEmpty = true ↔ ∀ w, d.accepts w = false := by
  rw [isEmpty, Bool.not_eq_true', List.any_eq_false]
  constructor
  · intro hnone w
    rw [Bool.eq_false_iff]
    intro hw
    obtain ⟨s, hs, haccept⟩ := acceptsFrom_iff.1 hw
    exact hnone s (h.mem_reachable_iff.2 ⟨w, hs⟩) haccept
  · intro hnone s hs haccept
    obtain ⟨w, hw⟩ := h.mem_reachable_iff.1 hs
    have hacc : d.accepts w = true := acceptsFrom_iff.2 ⟨s, hw, haccept⟩
    rw [hnone w] at hacc
    cases hacc

theorem enough_predecessors (d : Dfa) :
    Enough d.predecessors d.size ((List.range d.size).filter d.isAccepting)
      (List.range d.size) where
  starts_subset := fun _ hk => (List.mem_filter.1 hk).1
  closed := fun _ _ _ hl => (List.mem_filter.1 hl).1
  length_le := by simp

theorem WellFormed.mem_predecessors_iff (h : d.WellFormed) :
    s ∈ d.predecessors t ↔ s < d.size ∧ ∃ c, d.step? s c = some t := by
  rw [predecessors, List.mem_filter, List.mem_range, decide_eq_true_iff, h.mem_successors_iff]

theorem WellFormed.mem_productive_iff (h : d.WellFormed) :
    s ∈ d.productive ↔ s < d.size ∧ d.Productive s := by
  rw [productive, d.enough_predecessors.mem_explore_iff]
  constructor
  · intro hs
    induction hs with
    | start hk =>
        rw [List.mem_filter, List.mem_range] at hk
        exact ⟨hk.1, [], hk.2⟩
    | step _ hl ih =>
        obtain ⟨hlt, c, hc⟩ := h.mem_predecessors_iff.1 hl
        exact ⟨hlt, ih.2.of_step hc⟩
  · intro hs
    obtain ⟨hlt, v, hv⟩ := hs
    induction v generalizing s with
    | nil => exact .start (List.mem_filter.2 ⟨List.mem_range.2 hlt, hv⟩)
    | cons c v ih =>
        obtain ⟨t, hstep, hv⟩ := acceptsFrom_cons_iff.1 hv
        exact .step (ih (h.step?_lt hstep) hv) (h.mem_predecessors_iff.2 ⟨hlt, c, hstep⟩)

/-- A state is useful if some accepted word leads through it. -/
theorem WellFormed.mem_useful_iff (h : d.WellFormed) :
    s ∈ d.useful ↔ d.Reached s ∧ d.Productive s := by
  rw [useful, List.mem_filter, List.mem_range, Bool.and_eq_true, decide_eq_true_iff,
    decide_eq_true_iff, h.mem_reachable_iff, h.mem_productive_iff]
  constructor
  · intro hs
    exact ⟨hs.2.1, hs.2.2.2⟩
  · intro hs
    obtain ⟨u, hu⟩ := hs.1
    have hlt := h.stepAll?_lt h.start_lt hu
    exact ⟨hlt, hs.1, hlt, hs.2⟩

/-! ## Automata without useless states -/

/-- The automaton is well-formed, and all of its states are useful. -/
structure Trim (d : Dfa) : Prop extends d.WellFormed where
  reached : ∀ s < d.size, d.Reached s
  productive : ∀ s < d.size, d.Productive s

/-- The states of a list, numbered by it, with the transitions between them. -/
def restrict (d : Dfa) (keep : List Nat) : Dfa :=
  ⟨keep.idxOf d.start, keep.map fun s =>
    ⟨d.isAccepting s, (d.row s).filterMap fun t =>
      if t.target ∈ keep then some ⟨t.on, keep.idxOf t.target⟩ else none⟩⟩

theorem trim?_eq (d : Dfa) :
    d.trim? = if d.start ∈ d.useful then some (d.restrict d.useful) else none := rfl

variable {keep : List Nat}

@[simp] theorem size_restrict (d : Dfa) (keep : List Nat) :
    (d.restrict keep).size = keep.length := by
  simp [restrict, size]

theorem state_restrict (hs : s ∈ keep) :
    (d.restrict keep).states[keep.idxOf s]? = some ⟨d.isAccepting s,
      (d.row s).filterMap fun t =>
        if t.target ∈ keep then some ⟨t.on, keep.idxOf t.target⟩ else none⟩ := by
  rw [restrict, List.getElem?_map,
    List.getElem?_eq_getElem (List.idxOf_lt_length_of_mem hs), List.getElem_idxOf]
  rfl

theorem isAccepting_restrict (hs : s ∈ keep) :
    (d.restrict keep).isAccepting (keep.idxOf s) = d.isAccepting s :=
  isAccepting_eq_of_getElem? (state_restrict hs)

theorem row_restrict (hs : s ∈ keep) :
    (d.restrict keep).row (keep.idxOf s) = (d.row s).filterMap fun t =>
      if t.target ∈ keep then some ⟨t.on, keep.idxOf t.target⟩ else none :=
  row_eq_of_getElem? (state_restrict hs)

theorem mem_row_restrict {row : Row} {u : Transition} :
    u ∈ (row.filterMap fun t =>
      if t.target ∈ keep then some ⟨t.on, keep.idxOf t.target⟩ else none) ↔
    ∃ t ∈ row, t.target ∈ keep ∧ u = ⟨t.on, keep.idxOf t.target⟩ := by
  rw [List.mem_filterMap]
  constructor
  · intro hu
    obtain ⟨t, ht, heq⟩ := hu
    by_cases hkeep : t.target ∈ keep
    · rw [if_pos hkeep, Option.some_inj] at heq
      exact ⟨t, ht, hkeep, heq.symm⟩
    · rw [if_neg hkeep] at heq
      cases heq
  · intro hu
    obtain ⟨t, ht, hkeep, rfl⟩ := hu
    exact ⟨t, ht, if_pos hkeep⟩

theorem ordered_row_restrict {row : Row} (h : row.Ordered) :
    Row.Ordered (row.filterMap fun t =>
      if t.target ∈ keep then some ⟨t.on, keep.idxOf t.target⟩ else none) := by
  unfold Row.Ordered Interval.Ascending at h ⊢
  rw [List.pairwise_map] at h ⊢
  rw [List.pairwise_filterMap]
  refine h.imp ?_
  intro t u htu t' ht' u' hu'
  by_cases htk : t.target ∈ keep
  · by_cases huk : u.target ∈ keep
    · rw [if_pos htk, Option.some_inj] at ht'
      rw [if_pos huk, Option.some_inj] at hu'
      subst ht' hu'
      exact htu
    · rw [if_neg huk] at hu'
      cases hu'
  · rw [if_neg htk] at ht'
    cases ht'

theorem WellFormed.restrict (h : d.WellFormed) (hstart : d.start ∈ keep) :
    (d.restrict keep).WellFormed := by
  refine
    { start_lt := ?_
      target_lt := ?_
      ordered := ?_ }
  · rw [size_restrict]
    exact List.idxOf_lt_length_of_mem hstart
  · intro state hstate u hu
    obtain ⟨s, hs, rfl⟩ := List.mem_map.1 hstate
    obtain ⟨t, -, hkeep, rfl⟩ := mem_row_restrict.1 hu
    rw [size_restrict]
    exact List.idxOf_lt_length_of_mem hkeep
  · intro state hstate
    obtain ⟨s, hs, rfl⟩ := List.mem_map.1 hstate
    exact ordered_row_restrict (h.ordered_row s)

/-- The steps that remain are those between states of the list. -/
theorem WellFormed.step?_restrict (h : d.WellFormed) (hs : s ∈ keep) {c : Char} {t' : Nat} :
    (d.restrict keep).step? (keep.idxOf s) c = some t' ↔
      ∃ t ∈ keep, d.step? s c = some t ∧ keep.idxOf t = t' := by
  rw [step?, row_restrict hs, Row.step?_eq_some_iff (ordered_row_restrict (h.ordered_row s))]
  constructor
  · intro hu
    obtain ⟨u, hu, hc, rfl⟩ := hu
    obtain ⟨t, ht, hkeep, rfl⟩ := mem_row_restrict.1 hu
    exact ⟨t.target, hkeep, (Row.step?_eq_some_iff (h.ordered_row s)).2 ⟨t, ht, hc, rfl⟩, rfl⟩
  · intro ht
    obtain ⟨t, hkeep, hstep, rfl⟩ := ht
    obtain ⟨u, hu, hc, rfl⟩ := Row.exists_mem_of_step? hstep
    exact ⟨_, mem_row_restrict.2 ⟨u, hu, hkeep, rfl⟩, hc, rfl⟩

theorem WellFormed.acceptsFrom_restrict (h : d.WellFormed)
    (hclosed : ∀ s ∈ keep, ∀ c t, d.step? s c = some t → d.Productive t → t ∈ keep)
    (hs : s ∈ keep) (w : List Char) :
    (d.restrict keep).acceptsFrom (keep.idxOf s) w = true ↔ d.acceptsFrom s w = true := by
  induction w generalizing s with
  | nil => rw [acceptsFrom_nil, acceptsFrom_nil, isAccepting_restrict hs]
  | cons c w ih =>
      rw [acceptsFrom_cons_iff, acceptsFrom_cons_iff]
      constructor
      · intro hw
        obtain ⟨t', hstep', hw⟩ := hw
        obtain ⟨t, ht, hstep, rfl⟩ := (h.step?_restrict hs).1 hstep'
        exact ⟨t, hstep, (ih ht).1 hw⟩
      · intro hw
        obtain ⟨t, hstep, hw⟩ := hw
        have ht : t ∈ keep := hclosed s hs c t hstep ⟨w, hw⟩
        exact ⟨keep.idxOf t, (h.step?_restrict hs).2 ⟨t, ht, hstep, rfl⟩, (ih ht).2 hw⟩

theorem WellFormed.useful_closed (h : d.WellFormed) :
    ∀ s ∈ d.useful, ∀ c t, d.step? s c = some t → d.Productive t → t ∈ d.useful := by
  intro s hs c t hstep hproductive
  exact h.mem_useful_iff.2 ⟨(h.mem_useful_iff.1 hs).1.step hstep, hproductive⟩

theorem nodup_useful (d : Dfa) : d.useful.Nodup := List.nodup_range.filter _

/-- A word that leads to a useful state leads through useful states only. -/
theorem WellFormed.stepAll?_restrict_useful (h : d.WellFormed) {u : List Char}
    (hs : s ∈ d.useful) (hrun : d.stepAll? s u = some t) (ht : t ∈ d.useful) :
    (d.restrict d.useful).stepAll? (d.useful.idxOf s) u = some (d.useful.idxOf t) := by
  induction u generalizing s with
  | nil =>
      cases hrun
      rfl
  | cons c u ih =>
      rw [stepAll?_cons, Option.bind_eq_some_iff] at hrun
      obtain ⟨m, hstep, hrun⟩ := hrun
      have hproductive : d.Productive m := by
        obtain ⟨v, hv⟩ := (h.mem_useful_iff.1 ht).2
        exact ⟨u ++ v, by rw [acceptsFrom_append hrun, hv]⟩
      have hm := h.useful_closed s hs c m hstep hproductive
      rw [stepAll?_cons, (h.step?_restrict hs).2 ⟨m, hm, hstep, rfl⟩]
      exact ih hm hrun

theorem WellFormed.trim_restrict_useful (h : d.WellFormed) (hstart : d.start ∈ d.useful) :
    (d.restrict d.useful).Trim := by
  have hstate : ∀ i < (d.restrict d.useful).size,
      ∃ s ∈ d.useful, d.useful.idxOf s = i := by
    intro i hi
    rw [size_restrict] at hi
    exact ⟨d.useful[i], List.getElem_mem hi, d.nodup_useful.idxOf_getElem i hi⟩
  refine
    { h.restrict hstart with
      reached := ?_
      productive := ?_ }
  · intro i hi
    obtain ⟨s, hs, rfl⟩ := hstate i hi
    obtain ⟨u, hu⟩ := (h.mem_useful_iff.1 hs).1
    exact ⟨u, h.stepAll?_restrict_useful hstart hu hs⟩
  · intro i hi
    obtain ⟨s, hs, rfl⟩ := hstate i hi
    obtain ⟨v, hv⟩ := (h.mem_useful_iff.1 hs).2
    exact ⟨v, (h.acceptsFrom_restrict h.useful_closed hs v).2 hv⟩

/-- The useful states alone accept the same words, if there are any. -/
theorem WellFormed.trim_of_trim? (h : d.WellFormed) {e : Dfa} (he : d.trim? = some e) :
    e.Trim ∧ ∀ w, e.accepts w = d.accepts w := by
  rw [trim?_eq] at he
  by_cases hstart : d.start ∈ d.useful
  · rw [if_pos hstart, Option.some_inj] at he
    subst he
    refine ⟨h.trim_restrict_useful hstart, ?_⟩
    intro w
    rw [Bool.eq_iff_iff]
    exact h.acceptsFrom_restrict h.useful_closed hstart w
  · rw [if_neg hstart] at he
    cases he

/-- There are no useful states if no word is accepted. -/
theorem WellFormed.trim?_eq_none_iff (h : d.WellFormed) :
    d.trim? = none ↔ ∀ w, d.accepts w = false := by
  have hstart : d.start ∈ d.useful ↔ ∃ w, d.accepts w = true := by
    rw [h.mem_useful_iff]
    constructor
    · intro hs
      exact hs.2
    · intro hw
      exact ⟨⟨[], rfl⟩, hw⟩
  rw [trim?_eq]
  by_cases hmem : d.start ∈ d.useful
  · rw [if_pos hmem]
    obtain ⟨w, hw⟩ := hstart.1 hmem
    constructor
    · intro hnone
      cases hnone
    · intro hnone
      rw [hnone w] at hw
      cases hw
  · rw [if_neg hmem]
    refine ⟨fun _ w => ?_, fun _ => rfl⟩
    rw [Bool.eq_false_iff]
    exact fun hw => hmem (hstart.2 ⟨w, hw⟩)

end PatternAutomata.Dfa
