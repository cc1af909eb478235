import Mathlib.Algebra.BigOperators.Group.List.Basic
import PatternAutomata.Dfa.Composition
import PatternAutomata.Proofs.Determinization
import PatternAutomata.Proofs.Elementary
import PatternAutomata.Proofs.Gluing

/-!
# The languages of unions, concatenations and repetitions

The operations that put automata together are the operations on languages, whatever the
operands are like. Bounded repetition is built from the inside, as
`(L (L (…)?)?)?`, and comes down to the union of the powers in between.

## Main results

* `language_union`, `language_concat`, `language_optional`, `language_star`,
  `language_atLeast`, `mem_language_between`: the languages.
* `canonical_union`, `canonical_concat` and so on: the results may be operands again.
-/

namespace PatternAutomata.Dfa

open scoped Computability

variable {d : Dfa} {ds : List Dfa} {w : List Char}

/-! ## Union and concatenation -/

theorem language_minimized (h : d.WellFormed) : d.minimized.language = d.language :=
  language_eq_iff.2 h.accepts_minimized

theorem canonical_union (h : ∀ d ∈ ds, d.WellFormed) : (union ds).Canonical :=
  Nfa.canonical_determinize (Nfa.rooted_empty.alternatives_spec h).1

@[simp] theorem mem_sum_iff {ls : List (Language Char)} : w ∈ ls.sum ↔ ∃ l ∈ ls, w ∈ l := by
  induction ls with
  | nil => simp [Language.notMem_zero]
  | cons l ls ih =>
      rw [List.sum_cons, Language.mem_add, ih]
      simp only [List.mem_cons, exists_eq_or_imp]

/-- A union has the words of each part. -/
theorem language_union (h : ∀ d ∈ ds, d.WellFormed) :
    (union ds).language = (ds.map language).sum := by
  obtain ⟨htidy, haccepts⟩ := Nfa.rooted_empty.alternatives_spec h
  ext w
  rw [mem_language, union, Nfa.accepts_determinize htidy, haccepts, mem_sum_iff]
  simp only [List.mem_map, exists_exists_and_eq_and, mem_language]
  constructor
  · intro hw
    exact hw.resolve_left Nfa.not_accepts_empty
  · exact Or.inr

theorem chain_spec (h : ∀ d ∈ ds, d.WellFormed) :
    (Nfa.empty.chain [Nfa.empty.start] ds).Tidy ∧
    ∀ w, (Nfa.empty.chain [Nfa.empty.start] ds).Accepts w ↔ w ∈ (ds.map language).prod := by
  have hends : ∀ e ∈ [Nfa.empty.start], e ≤ Nfa.empty.last := by
    intro e he
    rw [List.mem_singleton] at he
    exact he ▸ Nat.le_refl 0
  have hnone : ∀ s, Nfa.empty.isAccepting s = false := by
    intro s
    rw [Bool.eq_false_iff]
    intro hs
    rw [Nfa.isAccepting, Std.ExtTreeSet.contains_iff_mem] at hs
    exact absurd hs Std.ExtTreeSet.not_mem_empty
  have hspec := Nfa.bounded_empty.chain_spec hnone hends h
  rwa [Nfa.leading_empty, one_mul] at hspec

theorem canonical_concat (h : ∀ d ∈ ds, d.WellFormed) : (concat ds).Canonical :=
  Nfa.canonical_determinize (chain_spec h).1

/-- A concatenation has the words made of one word of each part. -/
theorem language_concat (h : ∀ d ∈ ds, d.WellFormed) :
    (concat ds).language = (ds.map language).prod := by
  ext w
  rw [mem_language, concat, Nfa.accepts_determinize (chain_spec h).1, (chain_spec h).2]

/-! ## Repetition -/

theorem optional_operands (h : d.WellFormed) : ∀ e ∈ [d, emptyWord], e.WellFormed := by
  intro e he
  rcases List.mem_cons.1 he with rfl | he
  · exact h
  · rw [List.mem_singleton.1 he]
    exact canonical_emptyWord.toWellFormed

theorem canonical_optional (h : d.WellFormed) : d.optional.Canonical :=
  canonical_union (optional_operands h)

theorem language_optional (h : d.WellFormed) : d.optional.language = 1 + d.language := by
  rw [optional, language_union (optional_operands h)]
  simp
  exact add_comm _ _

theorem canonical_star (h : d.WellFormed) : d.star.Canonical :=
  Nfa.canonical_determinize (Nfa.tidy_loop h)

theorem language_star (h : d.WellFormed) : d.star.language = d.language∗ := by
  ext w
  rw [mem_language, star, Nfa.accepts_determinize (Nfa.tidy_loop h), Nfa.accepts_loop h]

theorem repeated_operands {e : Dfa} (h : d.WellFormed) (he : e.WellFormed) (n : Nat) :
    ∀ f ∈ List.replicate n d ++ [e], f.WellFormed := by
  intro f hf
  rcases List.mem_append.1 hf with hf | hf
  · rw [List.eq_of_mem_replicate hf]
    exact h
  · rw [List.mem_singleton.1 hf]
    exact he

/-- `n` words of the automaton and one word of another. -/
theorem language_concat_replicate {e : Dfa} (h : d.WellFormed) (he : e.WellFormed) (n : Nat) :
    (concat (List.replicate n d ++ [e])).language = d.language ^ n * e.language := by
  rw [language_concat (repeated_operands h he n), List.map_append, List.prod_append,
    List.map_replicate, List.prod_replicate, List.map_singleton, List.prod_singleton]

theorem canonical_atLeast (h : d.WellFormed) (min : Nat) : (d.atLeast min).Canonical := by
  rw [atLeast]
  by_cases hmin : min = 0
  · rw [if_pos hmin]
    exact canonical_star h
  · rw [if_neg hmin]
    exact canonical_concat (repeated_operands h (canonical_star h).toWellFormed min)

theorem language_atLeast (h : d.WellFormed) (min : Nat) :
    (d.atLeast min).language = d.language ^ min * d.language∗ := by
  rw [atLeast]
  by_cases hmin : min = 0
  · rw [if_pos hmin, language_star h, hmin, pow_zero, one_mul]
  · rw [if_neg hmin, language_concat_replicate h (canonical_star h).toWellFormed,
      language_star h]

theorem concat_pair_operands {e : Dfa} (h : d.WellFormed) (he : e.WellFormed) :
    ∀ f ∈ [d, e], f.WellFormed := by
  intro f hf
  rcases List.mem_cons.1 hf with rfl | hf
  · exact h
  · rw [List.mem_singleton.1 hf]
    exact he

theorem canonical_upTo (h : d.WellFormed) (n : Nat) : (d.upTo n).Canonical := by
  cases n with
  | zero => exact canonical_emptyWord
  | succ n =>
      have hrest := (canonical_upTo h n).toWellFormed
      have hconcat := (canonical_concat (concat_pair_operands h hrest)).toWellFormed
      exact (canonical_optional hconcat).toWellFormed.canonical_minimized

/-- At most `n` words are `k` words for some `k` up to `n`. -/
theorem mem_language_upTo (h : d.WellFormed) (n : Nat) :
    w ∈ (d.upTo n).language ↔ ∃ k ≤ n, w ∈ d.language ^ k := by
  induction n generalizing w with
  | zero =>
      rw [upTo, language_emptyWord]
      constructor
      · intro hw
        exact ⟨0, Nat.le_refl 0, hw⟩
      · intro hw
        obtain ⟨k, hk, hw⟩ := hw
        rwa [Nat.le_zero.1 hk] at hw
  | succ n ih =>
      have hrest := (canonical_upTo h n).toWellFormed
      have hconcat := (canonical_concat (concat_pair_operands h hrest)).toWellFormed
      rw [upTo, language_minimized (canonical_optional hconcat).toWellFormed,
        language_optional hconcat, language_concat (concat_pair_operands h hrest)]
      simp only [List.map_cons, List.map_nil, List.prod_cons, List.prod_nil, mul_one]
      rw [Language.mem_add]
      constructor
      · intro hw
        rcases hw with hw | hw
        · exact ⟨0, Nat.zero_le _, hw⟩
        · obtain ⟨u, hu, v, hv, rfl⟩ := Language.mem_mul.1 hw
          obtain ⟨k, hk, hv⟩ := ih.1 hv
          refine ⟨k + 1, Nat.succ_le_succ hk, ?_⟩
          rw [pow_succ']
          exact Language.append_mem_mul hu hv
      · intro hw
        obtain ⟨k, hk, hw⟩ := hw
        cases k with
        | zero => exact Or.inl hw
        | succ k =>
            right
            rw [pow_succ'] at hw
            obtain ⟨u, hu, v, hv, rfl⟩ := Language.mem_mul.1 hw
            exact Language.append_mem_mul hu (ih.2 ⟨k, Nat.le_of_succ_le_succ hk, hv⟩)

theorem canonical_between (h : d.WellFormed) (min max : Nat) :
    (d.between min max).Canonical := by
  rw [between]
  by_cases hmax : max < min
  · rw [if_pos hmax]
    exact canonical_empty
  · rw [if_neg hmax]
    exact canonical_concat (repeated_operands h (canonical_upTo h _).toWellFormed min)

/-- `min` words and up to `max - min` more are `k` words for some `k` in between. -/
theorem mem_language_between (h : d.WellFormed) (min max : Nat) :
    w ∈ (d.between min max).language ↔ ∃ k, min ≤ k ∧ k ≤ max ∧ w ∈ d.language ^ k := by
  rw [between]
  by_cases hmax : max < min
  · rw [if_pos hmax, language_empty]
    refine iff_of_false (Language.notMem_zero w) ?_
    intro hw
    obtain ⟨k, hmin, hk, -⟩ := hw
    omega
  · rw [if_neg hmax, language_concat_replicate h (canonical_upTo h _).toWellFormed,
      Language.mem_mul]
    constructor
    · intro hw
      obtain ⟨u, hu, v, hv, rfl⟩ := hw
      obtain ⟨k, hk, hv⟩ := (mem_language_upTo h _).1 hv
      refine ⟨min + k, by omega, by omega, ?_⟩
      rw [pow_add]
      exact Language.append_mem_mul hu hv
    · intro hw
      obtain ⟨k, hmin, hk, hw⟩ := hw
      rw [show k = min + (k - min) by omega, pow_add] at hw
      obtain ⟨u, hu, v, hv, rfl⟩ := Language.mem_mul.1 hw
      exact ⟨u, hu, v, (mem_language_upTo h _).2 ⟨k - min, by omega, hv⟩, rfl⟩

end PatternAutomata.Dfa
