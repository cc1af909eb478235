import PatternAutomata.Checked.Composition
import PatternAutomata.Proofs.CheckedElementary
import PatternAutomata.Proofs.CheckedMinimization
import PatternAutomata.Proofs.Composition

/-!
# Composed automata come out without a fault

The copies of the states of an operand are as many as its states, so its start and
its targets have copies. The transitions of a set of states overlay to ascending
intervals, so the deterministic automaton is drawn without a refusal.

## Main results

* `embed_eq`, `determinize_eq`: copying and determinization.
* `union_eq`, `concat_eq`, `optional_eq`, `star_eq`, `atLeast_eq`, `between_eq`.
-/

namespace PatternAutomata.Checked

open PatternAutomata.Interval

/-! ## Nondeterministic automata -/

section Assembly

variable {a : Nfa} {d : Dfa} {ds : List Dfa} {s t : Nat}

theorem connect_eq (h : ((a.fan? s).getD ∅).Ordered) (on : Interval) (t : Nat) :
    connect a s on t = pure (a.addTransition s on t) := by
  rw [connect, insertMap_eq _ h, pure_bind]
  rfl

/-- The numbers of the copies of the states of an automaton. -/
theorem entry_copies (hs : s < d.size) (offset : Nat) :
    entry ((List.range d.size).map (offset + ·)) s = pure (offset + s) :=
  entry_eq (by simp [hs])

theorem addRow_eq {offset : Nat} (h : a.TidyFrom offset) (hs : s < d.size) {row : Row}
    (hrow : ∀ t ∈ row, t.target < d.size) :
    addRow a ((List.range d.size).map (offset + ·)) s row =
      pure (a.addRow offset (offset + s) row) :=
  (foldlM_eq (P := fun b => b.TidyFrom offset) (fun b hb t ht => by
    rw [entry_copies hs, pure_bind, ofBounds_ends, pure_bind, entry_copies (hrow t ht), pure_bind,
      connect_eq (hb _ (Nat.le_add_right offset s))]
    exact ⟨rfl, hb.addTransition _ _ _⟩) h).1

/-- Every state that is looked up has a copy, and only copies get transitions. -/
theorem embed_eq (ha : a.TidyFrom (a.last + 1)) (h : d.WellFormed) :
    embed a d = pure (a.embed d) := by
  have hrows : (List.range d.size).foldlM (fun b s => do
      addRow b ((List.range d.size).map (a.last + 1 + ·)) s (← rowAt d s))
        { a with last := a.last + d.size } = pure (a.embed d).2 :=
    (foldlM_eq (P := fun b => b.TidyFrom (a.last + 1)) (fun b hb s hs => by
      have hlt := List.mem_range.1 hs
      rw [rowAt_eq hlt, pure_bind, addRow_eq hb hlt fun t ht => h.target_lt_row ht]
      exact ⟨rfl, hb.addRow _ _ _⟩) ha).1
  have haccepting : (List.range d.size).filterM (acceptingAt d) =
      pure ((List.range d.size).filter d.isAccepting) :=
    filterM_eq fun s hs => acceptingAt_eq (List.mem_range.1 hs)
  have hcopies : ((List.range d.size).filter d.isAccepting).mapM
      (entry ((List.range d.size).map (a.last + 1 + ·))) =
        pure (((List.range d.size).filter d.isAccepting).map (a.last + 1 + ·)) :=
    mapM_eq fun s hs => entry_copies (List.mem_range.1 (List.mem_filter.1 hs).1) _
  simp only [embed, hrows, entry_copies h.start_lt, haccepting, hcopies, pure_bind]
  rfl

theorem alternatives_eq (ha : a.Tidy) (h : ∀ d ∈ ds, d.WellFormed) :
    alternatives a ds = pure (a.alternatives ds) := by
  induction ds generalizing a with
  | nil => rfl
  | cons d ds ih =>
    have hd := h d (by simp)
    rw [alternatives, embed_eq (ha.tidyFrom _) hd, pure_bind]
    refine ih (Nfa.tidy_of_fans_eq (Nfa.embedded_embed ha hd).tidy ?_) fun e he =>
      h e (List.mem_cons_of_mem d he)
    exact (Nfa.acceptAll_frame _ _).2.2.1

theorem chain_eq (ha : a.Tidy) (ends : List Nat) (h : ∀ d ∈ ds, d.WellFormed) :
    chain a ends ds = pure (a.chain ends ds) := by
  induction ds generalizing a ends with
  | nil => rfl
  | cons d ds ih =>
    have hd := h d (by simp)
    rw [chain, embed_eq (ha.tidyFrom _) hd, pure_bind]
    refine ih (Nfa.tidy_of_fans_eq (Nfa.embedded_embed ha hd).tidy ?_) _ fun e he =>
      h e (List.mem_cons_of_mem d he)
    exact Nfa.fans_connectAll _ _ _

theorem loop_eq (h : d.WellFormed) : loop d = pure (Nfa.loop d) := by
  have hstart : (Nfa.empty.addAccepting Nfa.empty.start).Tidy :=
    Nfa.tidy_of_fans_eq Nfa.tidy_empty rfl
  rw [loop, embed_eq (hstart.tidyFrom _) h, pure_bind]
  rfl

/-! ## Determinization -/

/-- Insertions of transitions that are in order keep the overlay in order. -/
@[simp] theorem overlay_eq (a : Nfa) (states : StateSet) :
    overlay a states = pure (a.overlay states) :=
  (foldlM_eq (P := IntervalMap.Ordered) (fun _ hall _ _ =>
    foldlM_eq (P := IntervalMap.Ordered) (fun _ hall e _ =>
      ⟨insertMap_eq _ hall e.1 e.2, IntervalMap.ordered_insert _ hall e.1 e.2⟩) hall)
    Fan.ordered_empty).1

theorem subsets_reads (a : Nfa) : Draft.Reads (subsets a) a.subsets (· ∈ a.inhabitableSets) := by
  refine ⟨fun states _ => rfl, fun states _ => ?_⟩
  simp only [subsets, overlay_eq, pure_bind]
  rfl

theorem determinize_eq (h : a.Tidy) : determinize a = pure a.determinize := by
  have hbuild := Draft.build_insertRow_eq (subsets_reads a) (Nfa.confined_subsets h) .stack
  exact congrArg (· >>= fun x => pure x.dfa) hbuild

end Assembly

/-! ## Union, concatenation and repetition -/

section Composition

variable {d : Dfa} {ds : List Dfa}

theorem union_eq (h : ∀ d ∈ ds, d.WellFormed) : union ds = pure (.union ds) := by
  rw [union, alternatives_eq Nfa.tidy_empty h, pure_bind,
    determinize_eq (Nfa.rooted_empty.alternatives_spec h).1]
  rfl

theorem concat_eq (h : ∀ d ∈ ds, d.WellFormed) : concat ds = pure (.concat ds) := by
  rw [concat, chain_eq Nfa.tidy_empty _ h, pure_bind, determinize_eq (Dfa.chain_spec h).1]
  rfl

theorem optional_eq (h : d.WellFormed) : optional d = pure d.optional := by
  rw [optional, emptyWord_eq, pure_bind, union_eq (Dfa.optional_operands h)]
  rfl

theorem star_eq (h : d.WellFormed) : star d = pure d.star := by
  rw [star, loop_eq h, pure_bind, determinize_eq (Nfa.tidy_loop h)]
  rfl

theorem atLeast_eq (h : d.WellFormed) (min : Nat) : atLeast d min = pure (d.atLeast min) := by
  rw [atLeast, Dfa.atLeast]
  by_cases hmin : min = 0
  · rw [if_pos hmin, if_pos hmin, star_eq h]
  · rw [if_neg hmin, if_neg hmin, star_eq h, pure_bind,
      concat_eq (Dfa.repeated_operands h (Dfa.canonical_star h).toWellFormed min)]

theorem upTo_eq (h : d.WellFormed) (n : Nat) : upTo d n = pure (d.upTo n) := by
  induction n with
  | zero => exact emptyWord_eq
  | succ n ih =>
    have hoperands := Dfa.concat_pair_operands h (Dfa.canonical_upTo h n).toWellFormed
    have hconcat := (Dfa.canonical_concat hoperands).toWellFormed
    rw [upTo, ih, pure_bind, concat_eq hoperands, pure_bind, optional_eq hconcat, pure_bind,
      minimized_eq (Dfa.canonical_optional hconcat).toWellFormed]
    rfl

theorem between_eq (h : d.WellFormed) (min max : Nat) :
    between d min max = pure (d.between min max) := by
  rw [between, Dfa.between]
  by_cases hmax : max < min
  · rw [if_pos hmax, if_pos hmax]
  · rw [if_neg hmax, if_neg hmax, upTo_eq h, pure_bind,
      concat_eq (Dfa.repeated_operands h (Dfa.canonical_upTo h _).toWellFormed min)]

end Composition

end PatternAutomata.Checked
