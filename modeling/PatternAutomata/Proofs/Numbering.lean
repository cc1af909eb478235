import Mathlib.Data.Set.Function
import Mathlib.Order.Interval.Set.Defs
import PatternAutomata.Proofs.Tabulation

/-!
# A tabulated machine numbers the keys that words lead to

An automaton is often built to keep track of something other than the numbers of its
states: of sets of states, of pairs of states. Each state then stands for one of these
keys. `Dfa.Numbers` says that no key has two numbers, that no state is useless as a number,
and that reading a word leads to the number of the key that the word leads to.

Edges lead from key to key, and every edge has a character, so the keys that an
exploration finds are those that words lead to. Each of them is listed once. Hence the
states of the automaton of a machine are the numbers of these keys.

## Main results

* `Machine.Confined.reaches_iff`: keys along edges are keys along words.
* `Machine.Confined.numbers_toDfa`: the states of the automaton of a machine.
-/

namespace PatternAutomata

/-- The states are numbers of keys, one for each key that some word leads to, and a run
goes from key to key as words do. -/
structure Dfa.Numbers {κ : Type u} (d : Dfa) (key : Nat → κ) (leads : List Char → κ → Prop) :
    Prop where
  bijOn : Set.BijOn key (Set.Iio d.size) {k | ∃ w, leads w k}
  run : ∀ w k, (d.stepAll? d.start w).map key = some k ↔ leads w k
  reached : ∀ s < d.size, ∃ w, d.stepAll? d.start w = some s

namespace Machine

open PatternAutomata.Interval

variable {κ : Type u} {m : Machine κ} {k l : κ} {bound : Nat} {univ : List κ}

theorem stepAll?_append (m : Machine κ) (k : κ) (v w : List Char) :
    m.stepAll? k (v ++ w) = (m.stepAll? k v).bind fun l => m.stepAll? l w := by
  induction v generalizing k with
  | nil => rfl
  | cons c v ih =>
    rw [List.cons_append, stepAll?_cons, stepAll?_cons]
    cases m.step? k c with
    | none => rfl
    | some l => exact ih l

/-- A character of its interval leads along an edge. -/
theorem exists_step?_of_mem_successors (h : Ascending ((m.edges k).map (·.1)))
    (hl : l ∈ m.successors k) : ∃ c, m.step? k c = some l := by
  obtain ⟨⟨i, _⟩, he, rfl⟩ := List.mem_map.1 hl
  exact ⟨i.lo, valueAt?_of_mem h he i.lo_mem⟩

theorem reaches_of_stepAll? {starts : List κ}
    (hk : Exploration.Reaches m.successors starts k) {w : List Char}
    (hrun : m.stepAll? k w = some l) : Exploration.Reaches m.successors starts l := by
  induction w generalizing k with
  | nil =>
    cases hrun
    exact hk
  | cons c w ih =>
    rw [stepAll?_cons, Option.bind_eq_some_iff] at hrun
    obtain ⟨l', hstep, hrun⟩ := hrun
    exact ih (.step hk (mem_successors_of_step? hstep)) hrun

/-- The keys that edges lead to from the start are those that words lead to. -/
theorem Confined.reaches_iff (h : m.Confined bound univ) :
    Exploration.Reaches m.successors [m.start] k ↔ ∃ w, m.stepAll? m.start w = some k := by
  constructor
  · intro hk
    induction hk with
    | start hk => exact ⟨[], congrArg some (List.mem_singleton.1 hk).symm⟩
    | step hk hl ih =>
      obtain ⟨w, hw⟩ := ih
      obtain ⟨c, hc⟩ := exists_step?_of_mem_successors (h.ascending _ (h.mem_of_reaches hk)) hl
      exact ⟨w ++ [c], by rw [stepAll?_append, hw, Option.bind_some, stepAll?_cons, hc]; rfl⟩
  · rintro ⟨w, hw⟩
    exact reaches_of_stepAll? (.start (List.mem_singleton_self _)) hw

/-! ## Keys by their numbers -/

section Lists

variable {keys : List κ} {s : Nat}

theorem getD_eq_getElem (hs : s < keys.length) (default : κ) : keys.getD s default = keys[s] := by
  rw [List.getD_eq_getElem?_getD, List.getElem?_eq_getElem hs, Option.getD_some]

variable [DecidableEq κ]

theorem getD_idxOf (hk : k ∈ keys) (default : κ) : keys.getD (keys.idxOf k) default = k := by
  rw [getD_eq_getElem (List.idxOf_lt_length_of_mem hk), List.getElem_idxOf]

theorem idxOf_getD (h : keys.Nodup) (hs : s < keys.length) (default : κ) :
    keys.idxOf (keys.getD s default) = s := by
  rw [getD_eq_getElem hs, h.idxOf_getElem s hs]

/-- A list without repetitions numbers its members. -/
theorem bijOn_getD (h : keys.Nodup) (default : κ) :
    Set.BijOn (fun s => keys.getD s default) (Set.Iio keys.length) {k | k ∈ keys} := by
  refine ⟨fun s hs => ?_, fun s hs t ht hst => ?_, fun k hk => ?_⟩
  · show keys.getD s default ∈ keys
    rw [getD_eq_getElem hs]
    exact List.getElem_mem hs
  · have hst : keys.getD s default = keys.getD t default := hst
    rw [← idxOf_getD h hs default, hst, idxOf_getD h ht]
  · exact ⟨keys.idxOf k, List.idxOf_lt_length_of_mem hk, getD_idxOf hk default⟩

end Lists

variable [DecidableEq κ]

/-- The states of the automaton of a machine are numbers of the keys that words lead to. -/
theorem Confined.numbers_toDfa (h : m.Confined bound univ) (d : Exploration.Discipline) :
    ∃ key, (m.toDfa d bound).Numbers key fun w k => m.stepAll? m.start w = some k := by
  let keys := Exploration.explore d m.successors bound [m.start]
  have hclosed : m.Closed keys := h.closed_explore d
  have hnodup : keys.Nodup := Exploration.nodup_explore ..
  have hmem : ∀ k, k ∈ keys ↔ ∃ w, m.stepAll? m.start w = some k := fun k =>
    h.enough.mem_explore_iff.trans h.reaches_iff
  have hsize : (m.toDfa d bound).size = keys.length := size_tabulate m keys
  have hrun : ∀ w, (m.toDfa d bound).stepAll? (m.toDfa d bound).start w =
      (m.stepAll? m.start w).map keys.idxOf := hclosed.stepAll?_tabulate hclosed.start_mem
  refine ⟨fun s => keys.getD s m.start, ⟨?_, fun w k => ?_, fun s hs => ?_⟩⟩
  · have hbij := bijOn_getD hnodup m.start
    simp only [hmem] at hbij
    rwa [hsize]
  · rw [hrun, Option.map_map]
    cases hw : m.stepAll? m.start w with
    | none => simp
    | some l =>
      have hl : l ∈ keys := (hmem l).2 ⟨w, hw⟩
      rw [Option.map_some, Function.comp, getD_idxOf hl]
  · rw [hsize] at hs
    have hkey : keys.getD s m.start ∈ keys := (bijOn_getD hnodup m.start).mapsTo hs
    obtain ⟨w, hw⟩ := (hmem _).1 hkey
    exact ⟨w, by rw [hrun, hw, Option.map_some, idxOf_getD hnodup hs]⟩

end Machine

end PatternAutomata
