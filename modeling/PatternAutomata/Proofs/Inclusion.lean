import PatternAutomata.Proofs.Operations
import PatternAutomata.Proofs.Representation

/-!
# Emptiness, inclusion and equality of languages

An automaton accepts some word if and only if the start leads to an accepting state, which
a search in its graph decides. The search answers other questions, too: the product of an
automaton with the complement of another accepts the words of the first that the second
does not accept, so it is empty if and only if the first language is part of the second.
Two languages are therefore equal if and only if both differences are empty, and this way
to compare them never disagrees with the comparison of minimal automata.

## Main results

* `WellFormed.isEmpty_inter_complement_iff`: inclusion of languages.
* `emptiness_tests`: what the tests for emptiness, inclusion and equality decide.
-/

namespace PatternAutomata.Dfa

variable {a b : Dfa}

/-- The product with a complement accepts the words of one automaton that another one does
not accept. -/
theorem WellFormed.accepts_inter_complement_iff (ha : a.WellFormed) (hb : b.WellFormed)
    (w : List Char) :
    (a.inter b.complement).accepts w = true ↔ a.accepts w = true ∧ b.accepts w = false := by
  rw [← mem_language, language_inter ha hb.complement, language_complement hb, ← mem_language,
    ← Bool.not_eq_true, ← mem_language]
  rfl

theorem WellFormed.isEmpty_inter_complement_iff (ha : a.WellFormed) (hb : b.WellFormed) :
    (a.inter b.complement).isEmpty = true ↔
      ∀ w, a.accepts w = true → b.accepts w = true := by
  rw [(canonical_inter ha hb.complement).toWellFormed.isEmpty_iff]
  refine forall_congr' fun w => ?_
  rw [← Bool.not_eq_true, ha.accepts_inter_complement_iff hb, not_and, Bool.not_eq_false]

/-- Languages are equal if and only if each is part of the other. -/
theorem WellFormed.sameLanguage_iff (ha : a.WellFormed) (hb : b.WellFormed) :
    SameLanguage a b ↔
      (a.inter b.complement).isEmpty = true ∧ (b.inter a.complement).isEmpty = true := by
  rw [ha.isEmpty_inter_complement_iff hb, hb.isEmpty_inter_complement_iff ha, ← forall_and]
  refine forall_congr' fun w => ?_
  exact Bool.eq_iff_iff.trans iff_iff_implies_and_implies

/-- The test for inclusion comes out without a fault. -/
theorem checked_inter_complement_isEmpty (ha : a.WellFormed) (hb : b.WellFormed) :
    (do Checked.isEmpty (← Checked.inter a (← Checked.complement b))) =
      pure (a.inter b.complement).isEmpty := by
  rw [Checked.complement_eq hb, pure_bind, Checked.inter_eq ha hb.complement, pure_bind,
    Checked.isEmpty_eq (canonical_inter ha hb.complement).toWellFormed]

/-- An automaton is found to be empty if and only if it accepts no word, and its product
with the complement of another one if and only if the other one accepts all its words. Both
products are found to be empty if and only if the minimal automata are the same. -/
theorem emptiness_tests (ha : a.WellFormed) (hb : b.WellFormed) :
    (Checked.isEmpty a = pure a.isEmpty ∧
      (a.isEmpty = true ↔ ∀ w, ¬ a.accepts w = true)) ∧
    ((do Checked.isEmpty (← Checked.inter a (← Checked.complement b))) =
        pure (a.inter b.complement).isEmpty ∧
      ((a.inter b.complement).isEmpty = true ↔
        ∀ w, a.accepts w = true → b.accepts w = true)) ∧
    (Checked.minimized a = pure a.minimized ∧
      ((a.inter b.complement).isEmpty = true ∧ (b.inter a.complement).isEmpty = true ↔
        a.minimized = b.minimized)) := by
  refine ⟨⟨Checked.isEmpty_eq ha, ?_⟩, ⟨?_, ?_⟩, ⟨Checked.minimized_eq ha, ?_⟩⟩
  · simp only [ha.isEmpty_iff, Bool.not_eq_true]
  · exact checked_inter_complement_isEmpty ha hb
  · exact ha.isEmpty_inter_complement_iff hb
  · rw [ha.minimized_eq_iff hb, ha.sameLanguage_iff hb]

/-- The words of `splitRange` are all and not all of the words of other automata. -/
theorem emptiness_tests_splitRange :
    splitRange.WellFormed ∧ (ofRange 'a' 'c').WellFormed ∧ (ofRange 'a' 'z').WellFormed ∧
    ¬ splitRange.isEmpty = true ∧
    (∀ w, splitRange.accepts w = true → (ofRange 'a' 'z').accepts w = true) ∧
    ¬ (∀ w, (ofRange 'a' 'z').accepts w = true → splitRange.accepts w = true) ∧
    splitRange.minimized ≠ (ofRange 'a' 'z').minimized ∧
    splitRange.minimized = (ofRange 'a' 'c').minimized := by
  have hsplit : splitRange.WellFormed := ⟨by decide, by decide, by decide⟩
  have hac : (ofRange 'a' 'c').WellFormed := ⟨by decide, by decide, by decide⟩
  have haz : (ofRange 'a' 'z').WellFormed := ⟨by decide, by decide, by decide⟩
  obtain ⟨⟨-, hempty⟩, ⟨-, hle⟩, -, hsame⟩ := emptiness_tests hsplit haz
  obtain ⟨-, ⟨-, hge⟩, -⟩ := emptiness_tests haz hsplit
  obtain ⟨-, -, -, hsame'⟩ := emptiness_tests hsplit hac
  -- a search in the product of the wider range with the complement finds an accepting state
  have hmore : ¬ ((ofRange 'a' 'z').inter splitRange.complement).isEmpty = true := by
    decide +kernel
  refine ⟨hsplit, hac, haz, fun h => hempty.1 h ['a'] (by decide), hle.1 (by decide +kernel),
    fun h => hmore (hge.2 h), fun h => hmore (hsame.2 h).2,
    hsame'.1 ⟨by decide +kernel, by decide +kernel⟩⟩

end PatternAutomata.Dfa
