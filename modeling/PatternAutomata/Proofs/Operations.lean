import PatternAutomata.Proofs.CheckedComposition
import PatternAutomata.Proofs.Numbering

/-!
# The operations on automata

Each operation on well-formed automata comes out without a fault, and its result accepts
what it should, whatever the operands look like: their starts may accept or be returned to,
and they may have states that lead nowhere, or no words at all. Of the intersection and of
the total automaton more can be said, namely what their states stand for and how many
transitions these have.

## Main results

* `gluing_languages`: union, concatenation and repetition.
* `inter_numbers_pairs`: the product, with the pairs of states that it numbers.
* `totalize_complement`: the total automaton and the complement.
-/

namespace PatternAutomata.Dfa

open scoped Computability

variable {a b d : Dfa} {ds : List Dfa}

/-! ## Gluing -/

/-- No number of words lies between bounds that are reversed. -/
theorem language_between_of_lt (h : d.WellFormed) {min max : Nat} (hmax : max < min) :
    (d.between min max).language = 0 := by
  ext w
  refine iff_of_false (fun hw => ?_) (Language.notMem_zero w)
  obtain ⟨k, hmin, hk, -⟩ := (mem_language_between h min max).1 hw
  omega

/-- What the operations that glue copies of their operands together give. -/
theorem gluing_languages (h : ∀ d ∈ ds, d.WellFormed) :
    (Checked.union ds = pure (union ds) ∧
      (∀ w, w ∈ (union ds).language ↔ ∃ d ∈ ds, w ∈ d.language) ∧ (union []).language = 0) ∧
    (Checked.concat ds = pure (concat ds) ∧
      (concat ds).language = (ds.map language).prod ∧ (concat []).language = 1) ∧
    ∀ d ∈ ds,
      (Checked.optional d = pure d.optional ∧ d.optional.language = 1 + d.language) ∧
      (Checked.star d = pure d.star ∧ d.star.language = d.language∗) ∧
      (∀ min, Checked.atLeast d min = pure (d.atLeast min) ∧
        (d.atLeast min).language = d.language ^ min * d.language∗) ∧
      ∀ min max, Checked.between d min max = pure (d.between min max) ∧
        (∀ w, w ∈ (d.between min max).language ↔
          ∃ k, min ≤ k ∧ k ≤ max ∧ w ∈ d.language ^ k) ∧
        (max < min → (d.between min max).language = 0) := by
  have hnone : ∀ d ∈ ([] : List Dfa), d.WellFormed := fun d hd => by cases hd
  refine ⟨⟨Checked.union_eq h, fun w => ?_, language_union hnone⟩,
    ⟨Checked.concat_eq h, language_concat h, language_concat hnone⟩, fun d hd => ?_⟩
  · rw [language_union h, mem_sum_iff]
    simp only [List.mem_map, exists_exists_and_eq_and]
  · have hd := h d hd
    exact ⟨⟨Checked.optional_eq hd, language_optional hd⟩,
      ⟨Checked.star_eq hd, language_star hd⟩,
      fun min => ⟨Checked.atLeast_eq hd min, language_atLeast hd min⟩,
      fun min max => ⟨Checked.between_eq hd min max, fun w => mem_language_between hd min max,
        language_between_of_lt hd⟩⟩

/-- An automaton that loops through its accepting start, behind one with a state too many. -/
theorem gluing_languages_splitRange :
    (∀ d ∈ [splitRange, anyWord], d.WellFormed) ∧
    ['x', 'y'] ∈ (union [splitRange, anyWord]).language ∧
    (concat [splitRange, anyWord]).language = splitRange.language * anyWord.language ∧
    ['a', 'c'] ∈ (splitRange.between 1 2).language ∧
    (anyWord.between 2 1).language = 0 := by
  have h : ∀ d ∈ [splitRange, anyWord], d.WellFormed := by
    intro d hd
    simp only [List.mem_cons, List.not_mem_nil, or_false] at hd
    rcases hd with rfl | rfl
    · exact ⟨by decide, by decide, by decide⟩
    · exact ⟨by decide, by decide, by decide⟩
  obtain ⟨⟨-, hunion, -⟩, ⟨-, hconcat, -⟩, hsingle⟩ := gluing_languages h
  obtain ⟨-, -, -, hsplit⟩ := hsingle splitRange (by simp)
  obtain ⟨-, -, -, hany⟩ := hsingle anyWord (by simp)
  refine ⟨h, (hunion _).2 ⟨anyWord, by simp, mem_language.2 (by decide)⟩, by simpa using hconcat,
    ((hsplit 1 2).2.1 _).2 ⟨2, by decide, by decide, ?_⟩, (hany 2 1).2.2 (by decide)⟩
  rw [pow_two]
  exact ⟨['a'], mem_language.2 (by decide), ['c'], mem_language.2 (by decide), rfl⟩

/-! ## Intersection -/

/-- The intersection is drawn to the end without a refusal, accepts what both automata
accept, and has one state for each pair of states that some word leads to. -/
theorem inter_numbers_pairs (ha : a.WellFormed) (hb : b.WellFormed) :
    (∃ x, Drains .stack (Draft.draw (Checked.pairs a b) Checked.insertRow) [(a.start, b.start)]
      (.init (a.start, b.start)) x ∧ x.dfa = a.inter b) ∧
    (∀ w, (a.inter b).accepts w = true ↔ a.accepts w = true ∧ b.accepts w = true) ∧
    ∃ pair, (a.inter b).Numbers pair fun w (p : Nat × Nat) =>
      a.stepAll? a.start w = some p.1 ∧ b.stepAll? b.start w = some p.2 := by
  have hconfined := confined_pairs ha hb
  refine ⟨⟨_, Draft.drains_insertRow (Checked.pairs_reads ha hb) hconfined .stack, rfl⟩,
    fun w => ?_, ?_⟩
  · rw [inter, hconfined.accepts_toDfa]
    exact acceptsFrom_pairs ha hb _ w
  · obtain ⟨pair, hpair⟩ := hconfined.numbers_toDfa .stack
    simp only [stepAll?_pairs ha hb] at hpair
    exact ⟨pair, hpair⟩

/-- Three pairs of states are met, the start and one for each interval of the first row. -/
theorem inter_numbers_pairs_splitRange :
    splitRange.WellFormed ∧ (ofRange 'b' 'z').WellFormed ∧
    (splitRange.inter (ofRange 'b' 'z')).accepts ['c'] = true ∧
    ∃ pair, Set.BijOn pair (Set.Iio 3) {p : Nat × Nat | ∃ w,
      splitRange.stepAll? 0 w = some p.1 ∧ (ofRange 'b' 'z').stepAll? 0 w = some p.2} := by
  have ha : splitRange.WellFormed := ⟨by decide, by decide, by decide⟩
  have hb : (ofRange 'b' 'z').WellFormed := ⟨by decide, by decide, by decide⟩
  obtain ⟨-, haccepts, pair, hpair⟩ := inter_numbers_pairs ha hb
  have hsize : (splitRange.inter (ofRange 'b' 'z')).size = 3 := by decide +kernel
  refine ⟨ha, hb, (haccepts _).2 (by decide), pair, ?_⟩
  rw [← hsize]
  exact hpair.bijOn

/-! ## Complement -/

/-- Every state of the total automaton, the one that is added included, has exactly one
transition for each character; the total automaton accepts the same words, and the
complement accepts the others. -/
theorem totalize_complement (h : d.WellFormed) :
    (Checked.totalize d = pure d.totalize ∧ d.totalize.size = d.size + 1 ∧
      (∀ s < d.totalize.size, ∀ c,
        (d.totalize.row s).countP (fun t => decide (c ∈ t.on)) = 1) ∧
      ∀ w, d.totalize.accepts w = d.accepts w) ∧
    Checked.complement d = pure d.complement ∧
    ∀ w, d.complement.accepts w = true ↔ ¬ d.accepts w = true := by
  refine ⟨⟨Checked.totalize_eq h, size_totalize d, fun s hs c => h.countP_row_totalize hs c,
    h.accepts_totalize⟩, Checked.complement_eq h, fun w => ?_⟩
  rw [h.accepts_complement, Bool.not_eq_true', Bool.not_eq_true]

/-- A row that is cut, and one with all characters behind the surrogates. -/
def cutRange : Dfa :=
  ⟨0, [⟨false, [⟨⟨'p', 'q', by decide⟩, 1⟩, ⟨.singleton 'r', 1⟩]⟩,
    ⟨true, [⟨⟨'\uE000', Scalar.greatest, Scalar.le_greatest _⟩, 0⟩]⟩]⟩

theorem totalize_complement_cutRange :
    cutRange.WellFormed ∧
    cutRange.totalize.row 1 = [⟨⟨Scalar.least, '\uD7FF', by decide⟩, 2⟩,
      ⟨⟨'\uE000', Scalar.greatest, Scalar.le_greatest _⟩, 0⟩] ∧
    Checked.complement cutRange = pure cutRange.complement ∧
    cutRange.complement.accepts ['r', '\uE000'] = true ∧
    ¬ cutRange.complement.accepts ['r', '\uE000', 'q'] = true := by
  have h : cutRange.WellFormed := ⟨by decide, by decide, by decide⟩
  obtain ⟨-, hcomplement, haccepts⟩ := totalize_complement h
  refine ⟨h, by decide, hcomplement, (haccepts _).2 (by decide), fun hw => ?_⟩
  exact (haccepts _).1 hw (by decide)

end PatternAutomata.Dfa
