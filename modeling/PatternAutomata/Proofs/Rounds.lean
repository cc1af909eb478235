import PatternAutomata.Proofs.BreadthFirst
import PatternAutomata.Proofs.Marking

/-!
# Refinement of marked states

A round of refinement that passes over the states without a mark does what a round does on
the automaton that has the marked states only, up to the numbers of the states
(`round_eq`). So it is enough to follow the rounds on that automaton, where every round
but the last one adds a class. The number of classes therefore repeats, and when it does,
states are together that accept the same words.

## Main results

* `round_eq`: one round.
* `rounds_settle`: the rounds to the end.
* `Dfa.refinement_by_words`: the marks, the number of rounds, and the classes.
-/

namespace PatternAutomata

open Exploration

/-- The classes of some states, in the order of these. -/
def Dfa.Partition.restrict (p : Dfa.Partition) (keep : List Nat) : Dfa.Partition :=
  keep.map p.classOf

namespace Checked

variable {d : Dfa} {p : Dfa.Partition} {keep : List Nat} {n s : Nat}

theorem idxOf_lt_restrict (hs : s ∈ keep) : keep.idxOf s < (d.restrict keep).size := by
  rw [Dfa.size_restrict]
  exact List.idxOf_lt_length_of_mem hs

theorem classOf_restrict (hs : s ∈ keep) :
    (p.restrict keep).classOf (keep.idxOf s) = p.classOf s := by
  have hlt := List.idxOf_lt_length_of_mem hs
  rw [Dfa.classOf_eq_getElem (by rwa [Dfa.Partition.restrict, List.length_map])]
  simp [Dfa.Partition.restrict]

/-! ## Keys -/

/-- Transitions that are passed over might as well not be there. -/
theorem foldlM_absorb_marked (hp : p.length = d.size) {row : Row}
    (hrow : ∀ u ∈ row, u.target < d.size) (sig : Row) :
    row.foldlM (fun sig u => do
        if ← entry (marked d.size keep) u.target then absorb sig ⟨u.on, ← entry p u.target⟩
        else return sig) sig =
      (row.filterMap fun u => if u.target ∈ keep then some (⟨u.on, p.classOf u.target⟩ : Transition)
        else none).foldlM absorb sig := by
  induction row generalizing sig with
  | nil => rfl
  | cons u row ih =>
    have hu := hrow u List.mem_cons_self
    have ih := ih fun v hv => hrow v (List.mem_cons_of_mem u hv)
    rw [List.foldlM_cons, entry_marked hu, pure_bind]
    by_cases hkeep : u.target ∈ keep
    · rw [List.filterMap_cons, if_pos hkeep, List.foldlM_cons, if_pos (decide_eq_true hkeep),
        classOf_entry hp hu, pure_bind]
      exact congrArg _ (funext ih)
    · rw [List.filterMap_cons, if_neg hkeep, if_neg (by simpa using hkeep), pure_bind, ih]

/-- The labels of the transitions that remain are the classes of the targets. -/
theorem labelled_restrict (hs : s ∈ keep) :
    ((d.restrict keep).row (keep.idxOf s)).map
        (fun u => (⟨u.on, (p.restrict keep).classOf u.target⟩ : Transition)) =
      (d.row s).filterMap fun u => if u.target ∈ keep then some ⟨u.on, p.classOf u.target⟩
        else none := by
  rw [Dfa.row_restrict hs, List.map_filterMap]
  refine List.filterMap_congr fun u _ => ?_
  by_cases hu : u.target ∈ keep
  · rw [if_pos hu, if_pos hu, Option.map_some, classOf_restrict hu]
  · rw [if_neg hu, if_neg hu, Option.map_none]

theorem markedSignature_eq (h : d.WellFormed) (hstart : d.start ∈ keep) (hp : p.length = d.size)
    (hlt : s < d.size) (hs : s ∈ keep) :
    markedSignature d (marked d.size keep) p s =
      pure ((d.restrict keep).signature (p.restrict keep) (keep.idxOf s)) := by
  have hordered := Dfa.ordered_labelled (h.restrict hstart) (p.restrict keep) (keep.idxOf s)
  rw [markedSignature, rowAt_eq hlt, pure_bind,
    foldlM_absorb_marked hp fun u hu => h.target_lt_row hu, ← labelled_restrict hs]
  exact foldlM_absorb (show Row.Ordered ([] ++ _) from hordered)

/-- What a marked state is told apart by. -/
def key (d : Dfa) (keep : List Nat) (p : Dfa.Partition) (s : Nat) : Nat × Row :=
  (d.restrict keep).distinction (p.restrict keep) (keep.idxOf s)

theorem markedDistinction_eq (h : d.WellFormed) (hstart : d.start ∈ keep)
    (hp : p.length = d.size) (hlt : s < d.size) (hs : s ∈ keep) :
    markedDistinction d (marked d.size keep) p s = pure (key d keep p s) := by
  rw [markedDistinction, classOf_entry hp hlt, pure_bind, markedSignature_eq h hstart hp hlt hs,
    pure_bind, ← classOf_restrict hs]
  rfl

/-! ## One round -/

/-- The table of the numbers of some states; the other states have no class. -/
def numbered (n : Nat) (states : List Nat) (f : Nat → Nat) : Dfa.Partition :=
  tabulated n fun s => if s ∈ states then f s else unclassed

theorem length_numbered (n : Nat) (states : List Nat) (f : Nat → Nat) :
    (numbered n states f).length = n := by
  rw [numbered, tabulated, List.length_map, List.length_range]

theorem classOf_numbered {states : List Nat} {f : Nat → Nat} (hlt : s < n) (hs : s ∈ states) :
    (numbered n states f).classOf s = f s := by
  rw [Dfa.classOf_eq_getElem (by rwa [length_numbered])]
  simp [numbered, tabulated, hs]

theorem set_numbered {states : List Nat} {f g : Nat → Nat} (hfg : ∀ t ∈ states, f t = g t)
    (s : Nat) : (numbered n states f).set s (g s) = numbered n (states ++ [s]) g := by
  rw [numbered, set_tabulated]
  refine tabulated_congr fun t _ => ?_
  by_cases hts : t = s
  · simp [hts]
  · by_cases ht : t ∈ states
    · simp [hts, ht, hfg t ht]
    · simp [hts, ht]

/-- A key is put behind the others if it is new. -/
theorem distinct_concat {κ : Type} [DecidableEq κ] (ks : List κ) (k : κ)
    [Decidable (k ∈ distinct ks)] :
    (if k ∈ distinct ks then distinct ks else distinct ks ++ [k]) = distinct (ks ++ [k]) := by
  rw [distinct_append, fresh]
  by_cases hk : k ∈ distinct ks
  · rw [if_pos hk, if_pos hk, fresh, List.append_nil]
  · rw [if_neg hk, if_neg hk, fresh]

/-- What there is after some states in a round: the keys that came up, and the table. -/
def classified (n : Nat) (k : Nat → Nat × Row) (states : List Nat) :
    List (Nat × Row) × Dfa.Partition :=
  let keys := distinct (states.map k)
  (keys, numbered n states fun s => keys.idxOf (k s))

theorem classify_eq {marks : List Bool} {k : Nat → Nat × Row} (states : List Nat)
    (hkey : markedDistinction d marks p s = pure (k s)) :
    classify d marks p (classified n k states) s = pure (classified n k (states ++ [s])) := by
  -- the numbers given so far stay, as new keys come after the others
  have hfg : ∀ t ∈ states, (distinct (states.map k)).idxOf (k t) =
      (distinct (states.map k ++ [k s])).idxOf (k t) := by
    intro t ht
    rw [distinct_append, List.idxOf_append_of_mem (mem_distinct.2 (List.mem_map_of_mem ht))]
  have hmem : k s ∈ distinct (states.map k ++ [k s]) := mem_distinct.2 (by simp)
  have hkeys : (if k s ∈ (classified n k states).1 then (classified n k states).1
      else (classified n k states).1 ++ [k s]) = distinct (states.map k ++ [k s]) :=
    distinct_concat (states.map k) (k s)
  simp only [classify, hkey, pure_bind, hkeys]
  rw [number_key hmem, pure_bind, classified, classified, List.map_append, List.map_singleton,
    ← set_numbered hfg]

theorem foldlM_classify {marks : List Bool} {k : Nat → Nat × Row} {states : List Nat}
    (hkey : ∀ s ∈ states, markedDistinction d marks p s = pure (k s)) (before : List Nat) :
    states.foldlM (classify d marks p) (classified n k before) =
      pure (classified n k (before ++ states)) := by
  induction states generalizing before with
  | nil => rw [List.append_nil]; rfl
  | cons s states ih =>
    rw [List.foldlM_cons, classify_eq before (hkey s List.mem_cons_self), pure_bind,
      ih (fun t ht => hkey t (List.mem_cons_of_mem s ht)), ← List.append_cons]

/-- Classes of states are those of the states that remain if they agree one by one. -/
theorem restrict_eq (hnodup : keep.Nodup) {q : Dfa.Partition} (hlength : q.length = keep.length)
    (hclass : ∀ s ∈ keep, p.classOf s = q.classOf (keep.idxOf s)) : p.restrict keep = q := by
  refine List.ext_getElem (by rw [Dfa.Partition.restrict, List.length_map, hlength]) ?_
  intro i hi hi'
  have hlt : i < keep.length := hlength ▸ hi'
  calc (p.restrict keep)[i] = p.classOf keep[i] := by simp [Dfa.Partition.restrict]
    _ = q.classOf i := by
      rw [hclass _ (List.getElem_mem hlt), hnodup.idxOf_getElem i hlt]
    _ = q[i] := Dfa.classOf_eq_getElem hi'

theorem useful_lt (hs : s ∈ d.useful) : s < d.size :=
  List.mem_range.1 (List.mem_filter.1 hs).1

theorem filter_useful (d : Dfa) :
    (List.range d.size).filter (fun s => decide (s ∈ d.useful)) = d.useful :=
  List.filter_congr fun s hs => by
    rw [Bool.eq_iff_iff, decide_eq_true_iff, Dfa.useful, List.mem_filter, and_iff_right hs]

theorem filterM_useful (d : Dfa) :
    (List.range d.size).filterM (entry (marked d.size d.useful)) = pure d.useful := by
  rw [filterM_eq fun s hs => entry_marked (List.mem_range.1 hs), filter_useful]

/-- The keys of the useful states are those of the states of the trimmed automaton. -/
theorem map_key_useful (d : Dfa) (p : Dfa.Partition) :
    d.useful.map (key d d.useful p) =
      (List.range (d.restrict d.useful).size).map
        ((d.restrict d.useful).distinction (p.restrict d.useful)) := by
  refine List.ext_getElem (by simp) fun i hi _ => ?_
  rw [List.length_map] at hi
  rw [List.getElem_map, List.getElem_map, List.getElem_range, key,
    d.nodup_useful.idxOf_getElem i hi]

/-- A round on the useful states is a round on the trimmed automaton. -/
theorem round_eq (h : d.WellFormed) (hstart : d.start ∈ d.useful) (hp : p.length = d.size) :
    ∃ next : Dfa.Partition, next.length = d.size ∧
      next.restrict d.useful = (d.restrict d.useful).refine (p.restrict d.useful) ∧
      round d (marked d.size d.useful) p =
        pure (next, ((d.restrict d.useful).refine (p.restrict d.useful)).count) := by
  let t := d.restrict d.useful
  let q := p.restrict d.useful
  have hkey : ∀ s ∈ d.useful,
      markedDistinction d (marked d.size d.useful) p s = pure (key d d.useful p s) :=
    fun s hs => markedDistinction_eq h hstart hp (useful_lt hs) hs
  have hnil : (([], List.replicate d.size unclassed) : List (Nat × Row) × Dfa.Partition) =
      classified d.size (key d d.useful p) [] := by
    rw [replicate_eq_tabulated]
    simp [classified, numbered, distinct, fresh]
  have hround : round d (marked d.size d.useful) p =
      pure ((classified d.size (key d d.useful p) d.useful).2, (t.refine q).count) := by
    rw [round, filterM_useful, pure_bind, hnil, foldlM_classify hkey, pure_bind, Dfa.count_refine,
      ← map_key_useful]
    rfl
  refine ⟨_, length_numbered _ _ _, ?_, hround⟩
  refine restrict_eq d.nodup_useful ?_ fun s hs => ?_
  · rw [Dfa.length_refine, Dfa.size_restrict]
  · rw [classOf_numbered (useful_lt hs) hs, Dfa.classOf_refine (idxOf_lt_restrict hs),
      map_key_useful]
    rfl

/-! ## All rounds -/

theorem restrict_byAcceptance (d : Dfa) :
    d.byAcceptance.restrict d.useful = (d.restrict d.useful).byAcceptance := by
  refine restrict_eq d.nodup_useful ?_ fun s hs => ?_
  · rw [(Dfa.coarse_byAcceptance _).length_eq, Dfa.size_restrict]
  · rw [Dfa.classOf_byAcceptance (useful_lt hs), Dfa.classOf_byAcceptance (idxOf_lt_restrict hs),
      Dfa.isAccepting_restrict hs]

/-- The rounds go on until the number of classes repeats, which it does when there are as
many classes as states at the latest. -/
theorem rounds_settle (h : d.WellFormed) (hstart : d.start ∈ d.useful) (rounds : Nat)
    {count : Nat} (hlength : p.length = d.size)
    (hp : (d.restrict d.useful).Coarse (p.restrict d.useful))
    (hcount : count = (p.restrict d.useful).count)
    (hrounds : (d.restrict d.useful).size < rounds + count) :
    ∃ (n : Nat) (result : Dfa.Partition), n ≤ rounds ∧ result.length = d.size ∧
      result.restrict d.useful = (d.restrict d.useful).settle rounds count (p.restrict d.useful) ∧
      Rounds d (marked d.size d.useful) p count n result := by
  have htrim := h.trim_restrict_useful hstart
  induction rounds generalizing count p with
  | zero =>
    have hle := Dfa.count_le_size hp.length_eq
    omega
  | succ rounds ih =>
    obtain ⟨next, hlength', hnext, hround⟩ := round_eq h hstart hlength
    have hcoarse := htrim.coarse_refine hp
    have hle := htrim.count_le_refine hp
    rw [Dfa.settle, ← hnext]
    rw [← hnext] at hround hcoarse hle
    by_cases hstop : (next.restrict d.useful).count = count
    · rw [hstop] at hround
      exact ⟨1, next, by omega, hlength', (if_pos hstop).symm, .last hround⟩
    · obtain ⟨n, result, hn, hlength, hresult, hdone⟩ :=
        ih hlength' hcoarse rfl (by omega)
      exact ⟨n + 1, result, by omega, hlength, hresult.trans (if_neg hstop).symm,
        .more hround hstop hdone⟩

/-- From acceptance the rounds come to the partition of the trimmed automaton. -/
theorem rounds_partition (h : d.WellFormed) (hstart : d.start ∈ d.useful) :
    ∃ (n : Nat) (result : Dfa.Partition), n ≤ d.useful.length + 1 ∧ result.length = d.size ∧
      result.restrict d.useful = (d.restrict d.useful).partition ∧
      Rounds d (marked d.size d.useful) d.byAcceptance 0 n result := by
  have htrim := h.trim_restrict_useful hstart
  have hcoarse := htrim.coarse_refine (Dfa.coarse_byAcceptance _)
  have hne := htrim.count_refine_ne_zero (d.restrict d.useful).byAcceptance
  obtain ⟨next, hlength, hnext, hround⟩ :=
    round_eq h hstart (Dfa.coarse_byAcceptance d).length_eq
  rw [restrict_byAcceptance] at hnext hround
  rw [← hnext] at hround hcoarse hne
  obtain ⟨n, result, hn, hlength', hresult, hdone⟩ :=
    rounds_settle h hstart (d.restrict d.useful).size hlength hcoarse rfl (by omega)
  rw [Dfa.size_restrict] at hn
  refine ⟨n + 1, result, by omega, hlength', ?_, .more hround hne hdone⟩
  rw [hresult, Dfa.partition, Dfa.settle, ← hnext, if_neg hne]

theorem Rounds.unique {marks : List Bool} {count n m : Nat} {result result' : Dfa.Partition}
    (hdone : Rounds d marks p count n result) (hdone' : Rounds d marks p count m result') :
    m = n ∧ result' = result := by
  induction hdone generalizing m with
  | last hround =>
    cases hdone' with
    | last hround' =>
      obtain ⟨rfl, -⟩ := Prod.mk.inj (Except.ok.inj (hround.symm.trans hround'))
      exact ⟨rfl, rfl⟩
    | more hround' hne =>
      exact absurd (Prod.mk.inj (Except.ok.inj (hround.symm.trans hround'))).2.symm hne
  | more hround hne _ ih =>
    cases hdone' with
    | last hround' =>
      exact absurd (Prod.mk.inj (Except.ok.inj (hround.symm.trans hround'))).2 hne
    | more hround' _ hdone' =>
      obtain ⟨rfl, rfl⟩ := Prod.mk.inj (Except.ok.inj (hround.symm.trans hround'))
      obtain ⟨rfl, rfl⟩ := ih hdone'
      exact ⟨rfl, rfl⟩

/-! ## Marks and classes -/

theorem getElem?_marked_useful : (marked d.size d.useful)[s]? = some true ↔ s ∈ d.useful := by
  by_cases hs : s < d.size
  · simp [marked, tabulated, hs]
  · simp [marked, tabulated, hs, mt useful_lt hs]

theorem count_marked_useful (d : Dfa) :
    (marked d.size d.useful).count true = d.useful.length := by
  have hmark : (fun mark => mark == true) ∘ (fun s => decide (s ∈ d.useful)) =
      fun s => decide (s ∈ d.useful) := funext fun s => by simp
  rw [marked, tabulated, List.count_eq_countP, List.countP_map, hmark,
    List.countP_eq_length_filter, filter_useful]

/-- Useful states of one class accept the same words once the classes are those of the
trimmed automaton. -/
theorem classOf_eq_iff_of_restrict (h : d.WellFormed) (hstart : d.start ∈ d.useful)
    (hp : p.restrict d.useful = (d.restrict d.useful).partition) {t : Nat} (hs : s ∈ d.useful)
    (ht : t ∈ d.useful) : p.classOf s = p.classOf t ↔ d.SameWords s t := by
  have hwords : ∀ {s}, s ∈ d.useful → ∀ w,
      (d.restrict d.useful).acceptsFrom (d.useful.idxOf s) w = d.acceptsFrom s w :=
    fun hs w => Bool.eq_iff_iff.2 (h.acceptsFrom_restrict h.useful_closed hs w)
  rw [← classOf_restrict hs, ← classOf_restrict ht, hp,
    (h.trim_restrict_useful hstart).classOf_partition_iff (idxOf_lt_restrict hs)
      (idxOf_lt_restrict ht)]
  exact forall_congr' fun w => by rw [hwords hs, hwords ht]

end Checked

namespace Dfa

open Checked

variable {d : Dfa}

/-- If the start of an automaton is useful, the searches for useful states and the rounds
of refinement come to an end. A state is marked if it lies on a way from the start to
acceptance, there is at most one more round than there are marked states, and in the end
the marked states of a class are those that accept the same words. These are the classes
that the minimal automaton is made from. -/
theorem refinement_by_words (h : d.WellFormed) (hstart : d.Productive d.start) :
    ∃ (live : List Bool) (rounds : Nat) (result : Partition),
      (∀ marks, UsefulMarks d marks ↔ marks = live) ∧
      live.length = d.size ∧
      (∀ s, live[s]? = some true ↔ d.Reached s ∧ d.Productive s) ∧
      (∀ n p, Rounds d live d.byAcceptance 0 n p ↔ n = rounds ∧ p = result) ∧
      rounds ≤ live.count true + 1 ∧
      result.length = d.size ∧
      (∀ s t, live[s]? = some true → live[t]? = some true →
        (result.classOf s = result.classOf t ↔ d.SameWords s t)) ∧
      ∃ t, d.trim? = some t ∧ t.partition = d.useful.map result.classOf := by
  have huseful : d.start ∈ d.useful := h.mem_useful_iff.2 ⟨⟨[], rfl⟩, hstart⟩
  obtain ⟨rounds, result, hle, hlength, hresult, hdone⟩ := rounds_partition h huseful
  refine ⟨marked d.size d.useful, rounds, result, fun _ => usefulMarks_iff h, ?_, ?_, ?_, ?_,
    hlength, ?_, d.restrict d.useful, ?_, hresult.symm⟩
  · rw [marked, tabulated, List.length_map, List.length_range]
  · exact fun s => getElem?_marked_useful.trans h.mem_useful_iff
  · intro n p
    constructor
    · exact fun hdone' => hdone.unique hdone'
    · rintro ⟨rfl, rfl⟩
      exact hdone
  · rwa [count_marked_useful]
  · intro s t hs ht
    rw [getElem?_marked_useful] at hs ht
    exact classOf_eq_iff_of_restrict h huseful hresult hs ht
  · rw [trim?_eq, if_pos huseful]

/-- Two states that one can go on from in the same way, though the row of one is cut and the
other has a transition to a state that leads nowhere. -/
def deadEnd : Dfa :=
  ⟨0, [⟨false, [⟨⟨'g', 'h', by decide⟩, 1⟩, ⟨.singleton 'i', 2⟩, ⟨.singleton 'k', 3⟩]⟩,
    ⟨false, [⟨.singleton 'r', 4⟩, ⟨.singleton 's', 4⟩]⟩,
    ⟨false, [⟨⟨'r', 's', by decide⟩, 4⟩, ⟨.singleton 't', 3⟩]⟩, .idle, ⟨true, []⟩]⟩

theorem refinement_by_words_deadEnd :
    deadEnd.WellFormed ∧ deadEnd.Productive deadEnd.start ∧
    UsefulMarks deadEnd [true, true, true, false, true] ∧
    Rounds deadEnd [true, true, true, false, true] deadEnd.byAcceptance 0 2
      [0, 1, 1, unclassed, 2] ∧
    deadEnd.SameWords 1 2 ∧ ¬ deadEnd.SameWords 0 1 := by
  have hwf : deadEnd.WellFormed := ⟨by decide, by decide, by decide⟩
  have hstart : deadEnd.Productive deadEnd.start := ⟨['g', 'r'], by decide⟩
  have huseful : UsefulMarks deadEnd [true, true, true, false, true] :=
    (usefulMarks_iff hwf).2 (by decide +kernel)
  have hdone : Rounds deadEnd [true, true, true, false, true] deadEnd.byAcceptance 0 2
      [0, 1, 1, unclassed, 2] :=
    .more (show round _ _ _ = pure ([0, 1, 1, unclassed, 2], 3) by decide +kernel) (by decide)
      (.last (by decide +kernel))
  obtain ⟨live, rounds, result, hmarks, -, -, hrounds, -, -, hclass, -⟩ :=
    refinement_by_words hwf hstart
  obtain rfl := (hmarks _).1 huseful
  obtain ⟨-, rfl⟩ := (hrounds _ _).1 hdone
  refine ⟨hwf, hstart, huseful, hdone, (hclass 1 2 rfl rfl).1 rfl, fun hsame => ?_⟩
  exact absurd ((hclass 0 1 rfl rfl).2 hsame) (by decide)

end Dfa

end PatternAutomata
