import Mathlib.Data.List.Basic
import PatternAutomata.Dfa.Basic
import PatternAutomata.Proofs.IntervalSets
import PatternAutomata.Proofs.Minimization

/-!
# The words of elementary automata

Each elementary automaton is well-formed and accepts what it is made for.

## Main results

* `language_ofSet`, `language_ofWord`, `language_anyWord`, `language_emptyWord`,
  `language_empty`: the languages.
-/

namespace PatternAutomata.Dfa

open PatternAutomata.Interval

variable {d : Dfa} {s t : Nat} {c : Char} {w : List Char}

@[simp] theorem mem_language {w : List Char} : w ∈ d.language ↔ d.accepts w = true := Iff.rfl

@[simp] theorem language_empty : empty.language = 0 := by
  ext w
  rw [mem_language, accepts_empty]
  exact iff_of_false Bool.false_ne_true (Language.notMem_zero w)

@[simp] theorem language_emptyWord : emptyWord.language = 1 := by
  ext w
  rw [Language.mem_one]
  cases w with
  | nil => exact iff_of_true rfl rfl
  | cons c w =>
      refine iff_of_false ?_ (List.cons_ne_nil c w)
      intro h
      obtain ⟨t, hstep, -⟩ := acceptsFrom_cons_iff.1 h
      cases hstep

theorem canonical_emptyWord : emptyWord.Canonical :=
  ⟨⟨by decide, by decide, by decide⟩, by decide⟩

/-! ## One character -/

/-- The automaton with one transition for each interval of a set. -/
theorem wellFormed_ofSet {set : IntervalSet} (h : set.Canonical) : (ofSet set).WellFormed := by
  rw [ofSet]
  by_cases hempty : set.isEmpty = true
  · rw [if_pos hempty]
    exact canonical_empty.toWellFormed
  · rw [if_neg hempty]
    refine ⟨Nat.zero_lt_two, ?_, ?_⟩
    · intro state hstate t ht
      rcases List.mem_cons.1 hstate with rfl | hstate
      · obtain ⟨i, -, rfl⟩ := List.mem_map.1 ht
        exact Nat.one_lt_two
      · rw [List.mem_singleton.1 hstate] at ht
        cases ht
    · intro state hstate
      rcases List.mem_cons.1 hstate with rfl | hstate
      · rw [Row.Ordered, List.map_map]
        exact (List.map_id set.intervals).symm ▸ h.ascending
      · rw [List.mem_singleton.1 hstate]
        exact List.Pairwise.nil

theorem step?_ofSet {set : IntervalSet} (h : set.Canonical) (hempty : ¬ set.isEmpty = true) :
    (ofSet set).step? 0 c = some t ↔ c ∈ set ∧ t = 1 := by
  have hwf := wellFormed_ofSet h
  have hrow : (ofSet set).row 0 = set.intervals.map (⟨·, 1⟩) := by
    rw [ofSet, if_neg hempty]
    rfl
  rw [step?, Row.step?_eq_some_iff (hwf.ordered_row 0), hrow]
  constructor
  · intro hu
    obtain ⟨u, hu, hc, rfl⟩ := hu
    obtain ⟨i, hi, rfl⟩ := List.mem_map.1 hu
    exact ⟨⟨i, hi, hc⟩, rfl⟩
  · intro hc
    obtain ⟨⟨i, hi, hc⟩, rfl⟩ := hc
    exact ⟨⟨i, 1⟩, List.mem_map.2 ⟨i, hi, rfl⟩, hc, rfl⟩

theorem language_ofSet {set : IntervalSet} (h : set.Canonical) :
    (ofSet set).language = set.language := by
  by_cases hempty : set.isEmpty = true
  · rw [ofSet, if_pos hempty, language_empty]
    ext w
    refine iff_of_false (Language.notMem_zero w) ?_
    intro hw
    obtain ⟨c, hc, -⟩ := hw
    exact IntervalSet.isEmpty_iff.1 hempty c hc
  · have hstart : (ofSet set).start = 0 := by rw [ofSet, if_neg hempty]
    have haccept : ∀ s, (ofSet set).isAccepting s = true ↔ s = 1 := by
      rw [ofSet, if_neg hempty]
      intro s
      match s with
      | 0 => exact iff_of_false Bool.false_ne_true (by omega)
      | 1 => exact iff_of_true rfl rfl
      | s + 2 => exact iff_of_false Bool.false_ne_true (by omega)
    have hstuck : (ofSet set).step? 1 = fun _ => none := by
      rw [ofSet, if_neg hempty]
      rfl
    ext w
    rw [mem_language, accepts, hstart]
    constructor
    · intro hw
      cases w with
      | nil => exact absurd ((haccept 0).1 hw) (by omega)
      | cons c w =>
          obtain ⟨t, hstep, hw⟩ := acceptsFrom_cons_iff.1 hw
          obtain ⟨hc, rfl⟩ := (step?_ofSet h hempty).1 hstep
          cases w with
          | nil => exact ⟨c, hc, rfl⟩
          | cons c' w =>
              obtain ⟨t, hstep, -⟩ := acceptsFrom_cons_iff.1 hw
              rw [hstuck] at hstep
              cases hstep
    · intro hw
      obtain ⟨c, hc, rfl⟩ := hw
      refine acceptsFrom_cons_iff.2 ⟨1, (step?_ofSet h hempty).2 ⟨hc, rfl⟩, ?_⟩
      exact (haccept 1).2 rfl

theorem joined_map_intervals {set : IntervalSet} (h : set.Canonical) (target : Nat) :
    Row.Joined (set.intervals.map (⟨·, target⟩)) := by
  rw [Row.Joined, List.pairwise_map]
  exact h.imp fun hapart => ⟨hapart.1, fun hjoin => hapart.2 hjoin.2⟩

theorem canonical_ofSet {set : IntervalSet} (h : set.Canonical) : (ofSet set).Canonical where
  toWellFormed := wellFormed_ofSet h
  joined := by
    rw [ofSet]
    by_cases hempty : set.isEmpty = true
    · rw [if_pos hempty]
      exact canonical_empty.joined
    · rw [if_neg hempty]
      intro state hstate
      rcases List.mem_cons.1 hstate with rfl | hstate
      · exact joined_map_intervals h 1
      · rw [List.mem_singleton.1 hstate]
        exact List.Pairwise.nil

theorem canonical_ofChars (cs : List Char) : (IntervalSet.ofChars cs).Canonical :=
  IntervalSet.canonical_ofIntervals _

theorem canonical_ofBounds (lo hi : Char) : (IntervalSet.ofBounds lo hi).Canonical :=
  IntervalSet.canonical_ofIntervals _

theorem wellFormed_ofChars (cs : List Char) : (ofChars cs).WellFormed :=
  wellFormed_ofSet (canonical_ofChars cs)

theorem wellFormed_ofRange (lo hi : Char) : (ofRange lo hi).WellFormed :=
  wellFormed_ofSet (canonical_ofBounds lo hi)

theorem language_ofChars (cs : List Char) :
    (ofChars cs).language = (IntervalSet.ofChars cs).language :=
  language_ofSet (canonical_ofChars cs)

theorem mem_language_ofRange {lo hi : Char} :
    w ∈ (ofRange lo hi).language ↔ ∃ c, lo ≤ c ∧ c ≤ hi ∧ w = [c] := by
  rw [ofRange, language_ofSet (canonical_ofBounds lo hi)]
  constructor
  · intro hw
    obtain ⟨c, hc, rfl⟩ := hw
    obtain ⟨hlo, hhi⟩ := IntervalSet.mem_ofBounds.1 hc
    exact ⟨c, hlo, hhi, rfl⟩
  · intro hw
    obtain ⟨c, hlo, hhi, rfl⟩ := hw
    exact ⟨c, IntervalSet.mem_ofBounds.2 ⟨hlo, hhi⟩, rfl⟩

@[simp] theorem language_ofChar (c : Char) : (ofChar c).language = {[c]} := by
  ext w
  rw [ofChar, mem_language_ofRange]
  constructor
  · intro hw
    obtain ⟨e, hlo, hhi, rfl⟩ := hw
    rw [Char.le_antisymm hhi hlo]
    rfl
  · intro hw
    cases hw
    exact ⟨c, Char.le_refl c, Char.le_refl c, rfl⟩

/-! ## One word -/

@[simp] theorem length_spell (k : Nat) (word : List Char) :
    (spell k word).length = word.length + 1 := by
  induction word generalizing k with
  | nil => rfl
  | cons c word ih => rw [spell, List.length_cons, ih, List.length_cons]

theorem getElem?_spell {k i : Nat} {word : List Char} :
    (spell k word)[i]? =
      if i < word.length then
        (word[i]?).map fun c => ⟨false, [⟨.singleton c, k + i + 1⟩]⟩
      else if i = word.length then some ⟨true, []⟩
      else none := by
  induction word generalizing k i with
  | nil =>
      cases i with
      | zero => rfl
      | succ i => rfl
  | cons c word ih =>
      cases i with
      | zero => simp [spell]
      | succ i =>
          rw [spell, List.getElem?_cons_succ, ih, List.length_cons, List.getElem?_cons_succ]
          simp only [Nat.add_lt_add_iff_right, Nat.add_right_cancel_iff]
          rw [show k + 1 + i + 1 = k + (i + 1) + 1 by omega]

theorem wellFormed_ofWord (word : List Char) : (ofWord word).WellFormed := by
  have hsize : (ofWord word).size = word.length + 1 := length_spell 0 word
  have hstate : ∀ state ∈ (ofWord word).states, state = ⟨true, []⟩ ∨
      ∃ c, ∃ i < word.length, state = ⟨false, [⟨.singleton c, i + 1⟩]⟩ := by
    intro state hstate
    obtain ⟨i, hi⟩ := List.mem_iff_getElem?.1 hstate
    rw [show (ofWord word).states = spell 0 word from rfl, getElem?_spell] at hi
    by_cases hlt : i < word.length
    · rw [if_pos hlt, Option.map_eq_some_iff] at hi
      obtain ⟨c, -, rfl⟩ := hi
      exact Or.inr ⟨c, i, hlt, by rw [Nat.zero_add]⟩
    · rw [if_neg hlt] at hi
      by_cases heq : i = word.length
      · rw [if_pos heq] at hi
        exact Or.inl (Option.some.inj hi).symm
      · rw [if_neg heq] at hi
        cases hi
  refine ⟨?_, ?_, ?_⟩
  · rw [hsize]
    exact Nat.succ_pos _
  · intro state hmem t ht
    rcases hstate state hmem with rfl | ⟨c, i, hi, rfl⟩
    · cases ht
    · rw [List.mem_singleton.1 ht, hsize]
      exact Nat.succ_lt_succ hi
  · intro state hmem
    rcases hstate state hmem with rfl | ⟨c, i, hi, rfl⟩
    · exact List.Pairwise.nil
    · exact List.pairwise_singleton _ _

theorem joined_spell (k : Nat) (word : List Char) : ∀ state ∈ spell k word, state.row.Joined := by
  induction word generalizing k with
  | nil => simp [spell, Row.Joined]
  | cons c word ih =>
    intro state hstate
    rcases List.mem_cons.1 hstate with rfl | hstate
    · exact List.pairwise_singleton _ _
    · exact ih (k + 1) state hstate

theorem canonical_ofWord (word : List Char) : (ofWord word).Canonical where
  toWellFormed := wellFormed_ofWord word
  joined := joined_spell 0 word

/-- In the state numbered `i`, the word from index `i` on is accepted. -/
theorem acceptsFrom_ofWord {word : List Char} {i : Nat} (hi : i ≤ word.length) :
    (ofWord word).acceptsFrom i w = true ↔ w = word.drop i := by
  have hstate : (ofWord word).states[i]? = _ := getElem?_spell (k := 0) (i := i)
  induction w generalizing i with
  | nil =>
      rw [acceptsFrom_nil, eq_comm (a := []), List.drop_eq_nil_iff]
      by_cases hlt : i < word.length
      · rw [if_pos hlt, List.getElem?_eq_getElem hlt, Option.map_some] at hstate
        rw [isAccepting_eq_of_getElem? hstate]
        exact iff_of_false Bool.false_ne_true (by omega)
      · rw [if_neg hlt, if_pos (by omega)] at hstate
        rw [isAccepting_eq_of_getElem? hstate]
        exact iff_of_true rfl (by omega)
  | cons c w ih =>
      by_cases hlt : i < word.length
      · rw [if_pos hlt, List.getElem?_eq_getElem hlt, Option.map_some] at hstate
        have hstep : (ofWord word).step? i c = if c = word[i] then some (i + 1) else none := by
          rw [step?, row_eq_of_getElem? hstate, Row.step?_cons, Row.step?_nil, Nat.zero_add]
          simp only [mem_singleton]
        rw [acceptsFrom_cons, hstep, List.drop_eq_getElem_cons hlt, List.cons_eq_cons]
        by_cases hc : c = word[i]
        · rw [if_pos hc, Option.any_some]
          exact (ih hlt getElem?_spell).trans ⟨fun h => ⟨hc, h⟩, fun h => h.2⟩
        · rw [if_neg hc]
          exact iff_of_false Bool.false_ne_true fun h => hc h.1
      · rw [if_neg hlt, if_pos (by omega)] at hstate
        rw [acceptsFrom_cons, step?, row_eq_of_getElem? hstate,
          List.drop_eq_nil_of_le (Nat.le_of_not_lt hlt)]
        exact iff_of_false Bool.false_ne_true (List.cons_ne_nil c w)

@[simp] theorem language_ofWord (word : List Char) : (ofWord word).language = {word} := by
  ext w
  exact acceptsFrom_ofWord (Nat.zero_le _)

/-! ## All words -/

theorem wellFormed_anyWord : anyWord.WellFormed := ⟨by decide, by decide, by decide⟩

theorem canonical_anyWord : anyWord.Canonical := ⟨wellFormed_anyWord, by decide⟩

@[simp] theorem language_anyWord : anyWord.language = ⊤ := by
  ext w
  refine iff_of_true ?_ trivial
  induction w with
  | nil => rfl
  | cons c w ih =>
      refine acceptsFrom_cons_iff.2 ⟨0, ?_, ih⟩
      rw [step?, show anyWord.row anyWord.start = [⟨.full, 0⟩] from rfl, Row.step?_cons,
        if_pos (mem_full c)]

end PatternAutomata.Dfa
