import PatternAutomata.Checked.Marking
import PatternAutomata.Proofs.CheckedMinimization
import PatternAutomata.Proofs.SubsetConstruction

/-!
# The marks of the useful states

A table of marks stands for a list of states, and what a search does to it is what an
exploration does to the list of the states that it has met (`drains_visit`). So both
searches end. The first one marks the states that the start leads to. The second one goes
from state to state against the transitions and never leaves these, so it marks the states
that lie on a way from the start to acceptance.

## Main results

* `meet_eq`, `drains_visit`: a search in terms of lists of states.
* `sources_eq`: the table of transitions against their direction.
* `reaches_behind_iff`: what the second search looks for.
* `usefulMarks_iff`: what the two searches come to.
-/

namespace PatternAutomata

open Exploration

/-- A loop that goes on while something waits has one end. -/
theorem Drains.unique {κ : Type u} {σ : Type v} {d : Discipline}
    {step : κ → σ → Checked (σ × List κ)} {pending : List κ} {x y z : σ}
    (h : Drains d step pending x y) (h' : Drains d step pending x z) : y = z := by
  induction h with
  | done =>
    cases h'
    rfl
  | next hstep _ ih =>
    cases h' with
    | next hstep' h' =>
      obtain ⟨rfl, rfl⟩ := Prod.mk.inj (Except.ok.inj (hstep.symm.trans hstep'))
      exact ih h'

namespace Checked

variable {α : Type} {d : Dfa} {n s t : Nat} {f g : Nat → α} {seen states : List Nat}

/-! ## Tables -/

/-- The table of the values of a function at the first numbers. -/
def tabulated (n : Nat) (f : Nat → α) : List α := (List.range n).map f

theorem entry_tabulated (hs : s < n) : entry (tabulated n f) s = pure (f s) :=
  entry_eq (by simp [tabulated, hs])

theorem tabulated_congr (h : ∀ s < n, f s = g s) : tabulated n f = tabulated n g :=
  List.map_congr_left fun s hs => h s (List.mem_range.1 hs)

theorem replicate_eq_tabulated (n : Nat) (x : α) :
    List.replicate n x = tabulated n fun _ => x := by
  simp [tabulated]

theorem set_tabulated (f : Nat → α) (s : Nat) (x : α) :
    (tabulated n f).set s x = tabulated n (Function.update f s x) := by
  refine List.ext_getElem (by simp [tabulated]) fun t ht _ => ?_
  rw [List.getElem_set]
  by_cases hst : s = t
  · simp [tabulated, hst]
  · simp [tabulated, hst, Ne.symm hst]

/-! ## Marks -/

/-- The table that marks the states of a list. -/
def marked (n : Nat) (seen : List Nat) : List Bool := tabulated n fun s => decide (s ∈ seen)

theorem entry_marked (hs : s < n) : entry (marked n seen) s = pure (decide (s ∈ seen)) :=
  entry_tabulated hs

theorem marked_congr {seen' : List Nat} (h : ∀ s, s ∈ seen ↔ s ∈ seen') :
    marked n seen = marked n seen' :=
  tabulated_congr fun s _ => decide_eq_decide.2 (h s)

theorem replicate_marked (n : Nat) : List.replicate n false = marked n [] := by
  rw [replicate_eq_tabulated]
  exact tabulated_congr fun s _ => by simp

theorem set_marked (n : Nat) (seen : List Nat) (s : Nat) :
    (marked n seen).set s true = marked n (s :: seen) := by
  rw [marked, set_tabulated]
  refine tabulated_congr fun t _ => ?_
  by_cases hts : t = s
  · simp [hts]
  · simp [hts]

theorem markAll_marked (n : Nat) (states seen : List Nat) :
    markAll states (marked n seen) = marked n (states ++ seen) := by
  induction states generalizing seen with
  | nil => rfl
  | cons s states ih =>
    rw [markAll, List.foldl_cons, set_marked, ← markAll, ih]
    exact marked_congr fun t => by simp [or_left_comm]

/-- Meeting states marks those that were not met before, and lets them wait. -/
theorem meet_eq (hstates : ∀ s ∈ states, s < n) :
    meet states (marked n seen) =
      pure (marked n (seen ++ fresh seen states), fresh seen states) := by
  induction states generalizing seen with
  | nil => rw [meet, fresh, List.append_nil]
  | cons s states ih =>
    have htail : ∀ t ∈ states, t < n := fun t ht => hstates t (List.mem_cons_of_mem s ht)
    rw [meet, entry_marked (hstates s List.mem_cons_self), pure_bind, fresh]
    by_cases hs : s ∈ seen
    · rw [if_pos (decide_eq_true hs), if_pos hs, ih htail]
    · rw [if_neg (by simpa using hs), if_neg hs, set_marked, ih htail, pure_bind]
      have hsame : ∀ t, t ∈ s :: seen ++ fresh (s :: seen) states ↔
          t ∈ seen ++ s :: fresh (s :: seen) states := fun t => by simp [or_left_comm]
      rw [marked_congr hsame]

/-- A search with marks goes as the exploration does. -/
theorem drains_visit {next : Nat → Checked (List Nat)} {next' : Nat → List Nat}
    (hnext : ∀ s < n, next s = pure (next' s)) (hclosed : ∀ s < n, ∀ t ∈ next' s, t < n)
    {discipline : Discipline} {pending met : List Nat}
    (h : Drains discipline (look next') pending seen met) (hpending : ∀ s ∈ pending, s < n) :
    Drains discipline (visit next) pending (marked n seen) (marked n met) := by
  induction h with
  | done => exact .done _
  | @next s pending _ seen _ _ hlook _ ih =>
    have hs := hpending s List.mem_cons_self
    obtain ⟨rfl, rfl⟩ := Prod.mk.inj (Except.ok.inj hlook)
    have hvisit : visit next s (marked n seen) =
        pure (marked n (seen ++ fresh seen (next' s)), fresh seen (next' s)) := by
      rw [visit, hnext s hs, pure_bind, meet_eq (hclosed s hs)]
    refine .next hvisit (ih fun t ht => ?_)
    rcases mem_enqueue.1 ht with ht | ht
    · exact hclosed s hs t (mem_fresh.1 ht).1
    · exact hpending t (List.mem_cons_of_mem s ht)

/-! ## The states that the start leads to -/

theorem successors_lt (h : d.WellFormed) (ht : t ∈ d.successors s) : t < d.size := by
  obtain ⟨u, hu, rfl⟩ := List.mem_map.1 ht
  exact h.target_lt_row hu

/-- The first search. -/
theorem drains_reachable (h : d.WellFormed) :
    Drains .stack (visit (successors d)) [d.start] ((List.replicate d.size false).set d.start true)
      (marked d.size d.reachable) := by
  have hreachable : run .stack d.successors d.size [d.start] [d.start] = d.reachable := by
    rw [Dfa.reachable, explore, distinct_singleton]
  have hdrains := h.enough_successors.sound.drains .stack
  rw [distinct_singleton, hreachable] at hdrains
  rw [replicate_marked, set_marked]
  exact drains_visit (fun s hs => successors_eq h hs) (fun s _ t ht => successors_lt h ht) hdrains
    (by simpa using h.start_lt)

/-! ## Against the transitions -/

/-- The sources of the transitions from some states to a state. -/
def into (d : Dfa) (states : List Nat) (t : Nat) : List Nat :=
  states.flatMap fun s => ((d.row s).filter fun u => decide (u.target = t)).map fun _ => s

@[simp] theorem mem_into : s ∈ into d states t ↔ s ∈ states ∧ t ∈ d.successors s := by
  rw [into, List.mem_flatMap, Dfa.successors, List.mem_map]
  constructor
  · rintro ⟨s', hs', hmem⟩
    obtain ⟨u, hu, rfl⟩ := List.mem_map.1 hmem
    obtain ⟨hu, htarget⟩ := List.mem_filter.1 hu
    exact ⟨hs', u, hu, of_decide_eq_true htarget⟩
  · rintro ⟨hs, u, hu, htarget⟩
    exact ⟨s, hs, List.mem_map.2 ⟨u, List.mem_filter.2 ⟨hu, decide_eq_true htarget⟩, rfl⟩⟩

/-- A row puts its state into the entries of the targets. -/
theorem sources_row {row : Row} (hrow : ∀ u ∈ row, u.target < n) (f : Nat → List Nat) :
    row.foldlM (fun table u => do
        return table.set u.target ((← entry table u.target) ++ [s])) (tabulated n f) =
      (pure (tabulated n fun t =>
        f t ++ (row.filter fun u => decide (u.target = t)).map fun _ => s) : Checked _) := by
  induction row generalizing f with
  | nil => simp
  | cons u row ih =>
    rw [List.foldlM_cons, entry_tabulated (hrow u List.mem_cons_self), pure_bind, pure_bind,
      set_tabulated, ih fun v hv => hrow v (List.mem_cons_of_mem u hv)]
    refine congrArg pure (tabulated_congr fun t _ => ?_)
    by_cases ht : u.target = t
    · subst ht
      simp
    · simp [ht, Function.update_of_ne (Ne.symm ht)]

theorem sources_eq (h : d.WellFormed) :
    sources d = pure (tabulated d.size (into d (List.range d.size))) := by
  have hstates : ∀ (states : List Nat) (f : Nat → List Nat), (∀ s ∈ states, s < d.size) →
      (states.foldlM (fun table s => do
        (← rowAt d s).foldlM (fun table u => do
          return table.set u.target ((← entry table u.target) ++ [s])) table)
        (tabulated d.size f) : Checked (List (List Nat))) =
      pure (tabulated d.size fun t => f t ++ into d states t) := by
    intro states f hlt
    induction states generalizing f with
    | nil => simp [into]
    | cons s states ih =>
      rw [List.foldlM_cons, rowAt_eq (hlt s List.mem_cons_self), pure_bind,
        sources_row (fun u hu => h.target_lt_row hu), pure_bind,
        ih _ fun t ht => hlt t (List.mem_cons_of_mem s ht)]
      simp [into]
  rw [sources, replicate_eq_tabulated, hstates _ _ fun s hs => List.mem_range.1 hs]
  simp

/-- The states that the start leads to and that lead to a state by one transition. -/
def behind (d : Dfa) (t : Nat) : List Nat :=
  (into d (List.range d.size) t).filter fun s => decide (s ∈ d.reachable)

theorem mem_behind (h : d.WellFormed) :
    s ∈ behind d t ↔ d.Reached s ∧ ∃ c, d.step? s c = some t := by
  rw [behind, List.mem_filter, mem_into, List.mem_range, decide_eq_true_iff, h.mem_reachable_iff,
    h.mem_successors_iff]
  constructor
  · exact fun hs => ⟨hs.2, hs.1.2⟩
  · exact fun hs => ⟨⟨h.lt_of_reaches (h.reaches_iff.2 hs.1), hs.2⟩, hs.1⟩

/-- The accepting states that the start leads to. -/
def goals (d : Dfa) : List Nat :=
  (List.range d.size).filter fun s => d.isAccepting s && decide (s ∈ d.reachable)

theorem acceptingMarked_eq (d : Dfa) :
    acceptingMarked d (marked d.size d.reachable) = pure (goals d) :=
  filterM_eq fun s hs => by
    have hlt := List.mem_range.1 hs
    rw [acceptingAt_eq hlt, pure_bind, entry_marked hlt]
    cases d.isAccepting s <;> rfl

theorem sound_behind (d : Dfa) :
    Sound (behind d) (List.range d.size) d.size (goals d).reverse (goals d) where
  nodup := List.nodup_range.filter _
  seen_subset := fun _ hs => (List.mem_filter.1 hs).1
  pending_subset := fun _ hs => List.mem_reverse.1 hs
  closed := fun _ _ _ hs => (mem_into.1 (List.mem_filter.1 hs).1).1
  expanded := fun _ hs => .inl (List.mem_reverse.2 hs)
  room := by rw [List.length_reverse, List.length_range]

/-- Going against the transitions from accepting states, and staying among the states that
the start leads to, one finds what lies between the start and acceptance. -/
theorem reaches_behind_iff (h : d.WellFormed) :
    Reaches (behind d) (goals d) s ↔ d.Reached s ∧ d.Productive s := by
  constructor
  · intro hs
    induction hs with
    | start hs =>
      obtain ⟨-, hs⟩ := List.mem_filter.1 hs
      obtain ⟨haccepting, hreachable⟩ := Bool.and_eq_true_iff.1 hs
      exact ⟨h.mem_reachable_iff.1 (of_decide_eq_true hreachable), [], haccepting⟩
    | step _ hs ih =>
      obtain ⟨hreached, c, hstep⟩ := (mem_behind h).1 hs
      exact ⟨hreached, ih.2.of_step hstep⟩
  · rintro ⟨hreached, v, hv⟩
    induction v generalizing s with
    | nil =>
      have hlt := h.lt_of_reaches (h.reaches_iff.2 hreached)
      have hreachable := decide_eq_true (h.mem_reachable_iff.2 hreached)
      exact .start (List.mem_filter.2
        ⟨List.mem_range.2 hlt, Bool.and_eq_true_iff.2 ⟨hv, hreachable⟩⟩)
    | cons c v ih =>
      obtain ⟨t, hstep, hv⟩ := Dfa.acceptsFrom_cons_iff.1 hv
      exact .step (ih (hreached.step hstep) hv) ((mem_behind h).2 ⟨hreached, c, hstep⟩)

/-! ## Both searches -/

/-- The second search. -/
theorem drains_useful (h : d.WellFormed) :
    Drains .stack (visit fun s => do
        (← entry (tabulated d.size (into d (List.range d.size))) s).filterM
          (entry (marked d.size d.reachable)))
      (goals d).reverse (markAll (goals d) (List.replicate d.size false))
      (marked d.size d.useful) := by
  have hsound := sound_behind d
  have hbehind : ∀ s < d.size, (do
      (← entry (tabulated d.size (into d (List.range d.size))) s).filterM
        (entry (marked d.size d.reachable))) = (pure (behind d s) : Checked _) := by
    intro s hs
    rw [entry_tabulated hs, pure_bind]
    exact filterM_eq fun t ht => entry_marked (List.mem_range.1 (mem_into.1 ht).1)
  have hclosed : ∀ s < d.size, ∀ t ∈ behind d s, t < d.size := fun s hs t ht =>
    List.mem_range.1 (hsound.closed s (List.mem_range.2 hs) t ht)
  have hgoals : ∀ s ∈ (goals d).reverse, s < d.size := fun s hs =>
    List.mem_range.1 (hsound.seen_subset (List.mem_reverse.1 hs))
  have huseful : ∀ s, s ∈ run .stack (behind d) d.size (goals d).reverse (goals d) ↔
      s ∈ d.useful := fun s => by
    rw [hsound.mem_run_iff fun _ => Iff.rfl, reaches_behind_iff h, h.mem_useful_iff]
  rw [replicate_marked, markAll_marked, List.append_nil, ← marked_congr huseful]
  exact drains_visit hbehind hclosed (hsound.drains .stack) hgoals

/-- Both searches end, and with them the useful states are marked and no others. -/
theorem usefulMarks_iff (h : d.WellFormed) {live : List Bool} :
    UsefulMarks d live ↔ live = marked d.size d.useful := by
  constructor
  · rintro ⟨hreached, htable, hstarts, hlive⟩
    obtain rfl := hreached.unique (drains_reachable h)
    obtain rfl := Except.ok.inj (htable.symm.trans (sources_eq h))
    obtain rfl := Except.ok.inj (hstarts.symm.trans (acceptingMarked_eq d))
    exact hlive.unique (drains_useful h)
  · rintro rfl
    exact .intro (drains_reachable h) (sources_eq h) (acceptingMarked_eq d) (drains_useful h)

end Checked

end PatternAutomata
