import PatternAutomata.Checked.Minimization
import PatternAutomata.Proofs.Drafts
import PatternAutomata.Proofs.Edits
import PatternAutomata.Proofs.Minimization

/-!
# Minimization comes out without a fault

The searches only meet states, a partition has a class for every state, and every
class that is met has a representative. The rows of the quotient are signatures,
which are joined, and numbering different classes differently keeps them so.

## Main results

* `useful_eq`, `trim?_eq`: useful states.
* `signature_eq`, `partition_eq`: classes.
* `minimized_eq`: the minimal automaton.
-/

namespace PatternAutomata.Checked

open Exploration PatternAutomata.Interval

variable {d : Dfa} {p : Dfa.Partition} {s : Nat} {keep : List Nat}

/-! ## Useful states -/

theorem successors_eq (h : d.WellFormed) (hs : s < d.size) :
    successors d s = pure (d.successors s) := by
  rw [successors, rowAt_eq hs, pure_bind]
  refine mapM_eq fun t ht => ?_
  rw [stateAt_eq (h.target_lt_row ht), pure_bind]

theorem predecessors_eq (h : d.WellFormed) (hs : s < d.size) :
    predecessors d s = pure (d.predecessors s) := by
  rw [predecessors, stateAt_eq hs, pure_bind]
  refine filterM_eq fun p hp => ?_
  rw [successors_eq h (List.mem_range.1 hp), pure_bind]

/-- A search that stays among the states looks up nothing else. -/
theorem search_eq {next : Nat → Checked (List Nat)} {next' : Nat → List Nat}
    (hnext : ∀ s < d.size, next s = pure (next' s))
    (hclosed : ∀ s < d.size, ∀ t ∈ next' s, t < d.size) {bound : Nat} {pending : List Nat}
    (hpending : ∀ s ∈ pending, s < d.size) (seen : List Nat) :
    search next bound pending seen = pure (run .stack next' bound pending seen) := by
  induction bound generalizing pending seen with
  | zero => rfl
  | succ bound ih =>
    cases pending with
    | nil => rfl
    | cons s pending =>
      have hs := hpending s (by simp)
      rw [search, hnext s hs, pure_bind]
      refine ih (fun t ht => ?_) _
      rcases List.mem_append.1 ht with ht | ht
      · exact hclosed s hs t (mem_fresh.1 (List.mem_reverse.1 ht)).1
      · exact hpending t (List.mem_cons_of_mem s ht)

theorem reachable_eq (h : d.WellFormed) : reachable d = pure d.reachable := by
  have hclosed : ∀ s < d.size, ∀ t ∈ d.successors s, t < d.size := by
    intro s _ t ht
    obtain ⟨u, hu, rfl⟩ := List.mem_map.1 ht
    exact h.target_lt_row hu
  rw [reachable, stateAt_eq h.start_lt, pure_bind,
    search_eq (fun s hs => successors_eq h hs) hclosed (by simpa using h.start_lt),
    Dfa.reachable, explore, distinct_singleton]

theorem fresh_of_nodup {seen ks : List Nat} (h : ks.Nodup) (hseen : ∀ k ∈ ks, k ∉ seen) :
    fresh seen ks = ks := by
  induction ks generalizing seen with
  | nil => rfl
  | cons k ks ih =>
    obtain ⟨hk, hks⟩ := List.nodup_cons.1 h
    rw [fresh, if_neg (hseen k (by simp)), ih hks fun l hl => ?_]
    rw [List.mem_cons, not_or]
    exact ⟨fun hlk => hk (hlk ▸ hl), hseen l (List.mem_cons_of_mem k hl)⟩

theorem distinct_of_nodup {ks : List Nat} (h : ks.Nodup) : distinct ks = ks :=
  fresh_of_nodup h (by simp)

theorem productive_eq (h : d.WellFormed) : productive d = pure d.productive := by
  have haccepting : (List.range d.size).filterM (acceptingAt d) =
      pure ((List.range d.size).filter d.isAccepting) :=
    filterM_eq fun s hs => acceptingAt_eq (List.mem_range.1 hs)
  have hstarts : ∀ s ∈ (List.range d.size).filter d.isAccepting, s < d.size := fun s hs =>
    List.mem_range.1 (List.mem_filter.1 hs).1
  have hclosed : ∀ s < d.size, ∀ t ∈ d.predecessors s, t < d.size := fun s _ t ht =>
    List.mem_range.1 (List.mem_filter.1 ht).1
  rw [productive, haccepting, pure_bind,
    search_eq (fun s hs => predecessors_eq h hs) hclosed hstarts, Dfa.productive, explore,
    distinct_of_nodup (List.nodup_range.filter _)]

theorem useful_eq (h : d.WellFormed) : useful d = pure d.useful := by
  rw [useful, reachable_eq h, pure_bind, productive_eq h, pure_bind]
  rfl

theorem keepRow_eq {row : Row} (hrow : ∀ t ∈ row, t.target < d.size) :
    keepRow d keep row = pure (row.filterMap fun t =>
      if t.target ∈ keep then some ⟨t.on, keep.idxOf t.target⟩ else none) := by
  have hfilter : (row.filterM fun t => do
      let _ ← stateAt d t.target
      return decide (t.target ∈ keep)) =
        pure (row.filter fun t => decide (t.target ∈ keep)) :=
    filterM_eq fun t ht => by rw [stateAt_eq (hrow t ht), pure_bind]
  have hnumber : (row.filter fun t => decide (t.target ∈ keep)).mapM (fun t => do
      return (⟨t.on, ← number keep t.target⟩ : Transition)) =
        pure ((row.filter fun t => decide (t.target ∈ keep)).map fun t =>
          ⟨t.on, keep.idxOf t.target⟩) :=
    mapM_eq fun t ht => by
      rw [number_eq (of_decide_eq_true (List.mem_filter.1 ht).2), pure_bind]
  rw [keepRow, hfilter, pure_bind, hnumber, ← List.filterMap_eq_map, List.filterMap_filter]
  refine congrArg pure (List.filterMap_congr fun t _ => ?_)
  simp

theorem trim?_eq (h : d.WellFormed) : trim? d = pure d.trim? := by
  have hstates : d.useful.mapM (fun s => do
      let row ← keepRow d d.useful (← rowAt d s)
      return (⟨← acceptingAt d s, row⟩ : Dfa.State)) =
        pure (d.useful.map fun s => ⟨d.isAccepting s, (d.row s).filterMap fun t =>
          if t.target ∈ d.useful then some ⟨t.on, d.useful.idxOf t.target⟩ else none⟩) :=
    mapM_eq fun s hs => by
      have hlt : s < d.size := List.mem_range.1 (List.mem_filter.1 hs).1
      rw [rowAt_eq hlt, pure_bind, keepRow_eq fun t ht => h.target_lt_row ht, pure_bind,
        acceptingAt_eq hlt, pure_bind]
  rw [trim?, useful_eq h, pure_bind, Dfa.trim?]
  by_cases hstart : d.start ∈ d.useful
  · rw [if_pos hstart, if_pos hstart, number_eq hstart, pure_bind, hstates, pure_bind]
  · rw [if_neg hstart, if_neg hstart]

/-! ## Classes -/

theorem absorb_eq {row : Row} {t : Transition} (h : Row.Ordered (row ++ [t])) :
    absorb (Row.coalesce row) t = pure (Row.coalesce (row ++ [t])) := by
  have hrow := (Row.ordered_append.1 h).1
  have hbefore := Row.coalesce_before hrow fun u hu => (Row.ordered_append.1 h).2.2 u hu t (by simp)
  have hjoined := Row.joined_coalesce hrow
  rw [Row.coalesce_append h]
  rcases List.eq_nil_or_concat (Row.coalesce row) with hnil | ⟨pre, u, hlast⟩
  · rw [hnil]
    rfl
  · rw [List.concat_eq_append] at hlast
    rw [hlast] at hjoined hbefore ⊢
    rw [List.foldr_append, List.foldr_cons, List.foldr_nil, Row.foldr_glue_glue hjoined
      fun v hv => List.mem_singleton.1 hv ▸ hbefore u (by simp), Row.glue, absorb]
    simp only [List.getLast?_concat, List.dropLast_concat]
    by_cases hjoin : u.target = t.target ∧ u.on.Touches t.on
    · obtain ⟨hlo, hhi⟩ := ends_hull (hbefore u (by simp))
      rw [if_pos hjoin, if_pos ⟨hjoin.1, touches_comm.1 hjoin.2⟩, ofBounds_eq hlo hhi, pure_bind,
        hjoin.1]
    · rw [if_neg hjoin, if_neg fun h => hjoin ⟨h.1, touches_comm.1 h.2⟩, List.append_assoc]
      rfl

theorem foldlM_absorb {pre post : Row} (h : Row.Ordered (pre ++ post)) :
    post.foldlM absorb (Row.coalesce pre) = pure (Row.coalesce (pre ++ post)) := by
  induction post generalizing pre with
  | nil => rw [List.append_nil]; rfl
  | cons t post ih =>
    rw [List.append_cons] at h
    rw [List.foldlM_cons, absorb_eq (Row.ordered_append.1 h).1, pure_bind, ih h, ← List.append_cons]

theorem classOf_entry (hp : p.length = d.size) (hs : s < d.size) :
    entry p s = pure (p.classOf s) := by
  rw [Dfa.classOf_eq_getElem (hp ▸ hs)]
  exact entry_eq (List.getElem?_eq_getElem (hp ▸ hs))

theorem signature_eq (h : d.WellFormed) (hp : p.length = d.size) (hs : s < d.size) :
    signature d p s = pure (d.signature p s) := by
  have hlabel : ∀ (row : Row) (sig : Row), (∀ t ∈ row, t.target < d.size) →
      row.foldlM (fun sig t => do absorb sig ⟨t.on, ← entry p t.target⟩) sig =
        (row.map fun t => (⟨t.on, p.classOf t.target⟩ : Transition)).foldlM absorb sig := by
    intro row sig hrow
    induction row generalizing sig with
    | nil => rfl
    | cons t row ih =>
      rw [List.foldlM_cons, List.map_cons, List.foldlM_cons,
        classOf_entry hp (hrow t (by simp)), pure_bind]
      exact congrArg _ (funext fun sig => ih sig fun u hu => hrow u (List.mem_cons_of_mem t hu))
  rw [signature, rowAt_eq hs, pure_bind, hlabel _ _ fun t ht => h.target_lt_row ht]
  exact foldlM_absorb (show Row.Ordered ([] ++ _) from Dfa.ordered_labelled h p s)

theorem number_key {keys : List (Nat × Row)} {k : Nat × Row} (hk : k ∈ keys) :
    number keys k = pure (keys.idxOf k) := by
  have hbeq : (instBEqProd : BEq (Nat × Row)) = instBEqOfDecidableEq := lawful_beq_subsingleton _ _
  rw [hbeq]
  exact number_eq hk

theorem refine_eq (h : d.WellFormed) (hp : p.length = d.size) :
    refine d p = pure (d.refine p) := by
  have hkeys : (List.range d.size).mapM (distinction d p) =
      pure ((List.range d.size).map (d.distinction p)) :=
    mapM_eq fun s hs => by
      have hlt := List.mem_range.1 hs
      rw [distinction, classOf_entry hp hlt, pure_bind, signature_eq h hp hlt, pure_bind]
      rfl
  rw [refine, hkeys, pure_bind, Dfa.refine]
  exact mapM_eq fun k hk => number_key (mem_distinct.2 hk)

theorem settle_eq (h : d.WellFormed) (rounds count : Nat) (hp : p.length = d.size) :
    settle d rounds count p = pure (d.settle rounds count p) := by
  induction rounds generalizing count p with
  | zero => rfl
  | succ rounds ih =>
    rw [settle, refine_eq h hp, pure_bind, Dfa.settle]
    by_cases hcount : (d.refine p).count = count
    · rw [if_pos hcount]
      exact (congrArg pure (if_pos hcount)).symm
    · rw [if_neg hcount, ih _ (Dfa.length_refine d p)]
      exact (congrArg pure (if_neg hcount)).symm

theorem partition_eq (h : d.WellFormed) : partition d = pure d.partition :=
  settle_eq h _ _ (Dfa.coarse_byAcceptance d).length_eq

/-- Every class has a representative, and rows of representatives are joined. -/
theorem quotient_reads (h : d.WellFormed) (hp : p.length = d.size) :
    Draft.Reads (quotient d p) (d.quotient p) (· ∈ distinct p) := by
  have hfirst : ∀ k ∈ distinct p, number p k = pure (p.idxOf k) ∧ p.idxOf k < d.size := by
    intro k hk
    have hk := mem_distinct.1 hk
    exact ⟨number_eq hk, hp ▸ List.idxOf_lt_length_of_mem hk⟩
  refine ⟨fun k hk => ?_, fun k hk => ?_⟩
  all_goals obtain ⟨hnumber, hlt⟩ := hfirst k hk
  · simp only [quotient, hnumber, pure_bind, acceptingAt_eq hlt]
    rfl
  · simp only [quotient, hnumber, pure_bind, signature_eq h hp hlt]
    rfl

theorem draws_quotient (h : d.WellFormed) (k : Nat) :
    Draft.Draws pushRow ((d.quotient p).edges k) := by
  refine Draft.draws_pushRow ?_
  rw [Dfa.quotient, List.pairwise_map]
  exact (h.joined_signature p (p.idxOf k))

theorem minimized_eq (h : d.WellFormed) : minimized d = pure d.minimized := by
  rw [minimized, trim?_eq h, pure_bind, Dfa.minimized]
  cases ht : d.trim? with
  | none => rfl
  | some t =>
    have htrim := (h.trim_of_trim? ht).1
    have hp := htrim.congruence_partition.toCoarse
    have hwf := htrim.toWellFormed
    have hbuild := Draft.build_eq (quotient_reads hwf hp.length_eq)
      (fun k _ => draws_quotient hwf k) (hp.confined_quotient hwf) .queue
    show (do
      let p ← partition t
      let start ← entry p t.start
      return (← (Draft.init start).build (quotient t p) pushRow .queue p.count [start]).dfa) = _
    rw [partition_eq hwf, pure_bind, classOf_entry hp.length_eq hwf.start_lt, pure_bind]
    exact congrArg (· >>= fun x => pure x.dfa) hbuild

end PatternAutomata.Checked
