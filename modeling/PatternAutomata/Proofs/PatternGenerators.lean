import Mathlib.Algebra.Ring.Parity
import PatternAutomata.Proofs.Consumption
import PatternAutomata.Proofs.Draws
import PatternAutomata.Proofs.Trees
import PatternAutomata.Proofs.Usage

/-!
# From a text to random words

Setting up a generator goes through reading, compiling and minimizing, and the first of them
that fails decides the error (`Makes`). What comes out of all of them is a generator whose
strings are the words of the pattern.

The anchors are taken off before the text is read, and the dollar sign at the end is taken
off even if it is escaped. Its backslash then stands alone at the end of the text, which no
form of the notation ends with, so such a text is never read. For all other texts the
anchors are taken off as they should be.

## Main results

* `makes_ofPattern`: the errors in their order, and the strings of the generator.
* `ofPattern_spec`: the same with escapes respected, for all texts that do not end with an
  escaped dollar sign; the others are malformed.
* `ofPattern_spec_not_general`: escaped dollar signs do make a difference.
-/

namespace PatternAutomata

/-! ## References without an environment -/

namespace Pattern

variable {alphabet : Option Alphabet} {p : Pattern} {name : String} {names : List String}

/-- Without automata for names the first reference is the one that fails. -/
theorem compile_eq_error_of_references (h : p.references = name :: names) :
    (p.compile alphabet .empty).outcome.1 = .error ⟨name, none⟩ := by
  have hforget := congrArg Resolving.outcome (forget_compile alphabet .empty p)
  rw [Resolving.outcome_forget, h] at hforget
  have hresult : (p.compile alphabet .empty).outcome.1.map (fun _ => ()) =
      .error ⟨name, none⟩ := congrArg Prod.fst hforget
  cases hd : (p.compile alphabet .empty).outcome.1 with
  | ok d =>
      rw [hd] at hresult
      cases hresult
  | error e =>
      rw [hd] at hresult
      cases hresult
      rfl

end Pattern

namespace Generator

open Dfa

variable {ranges : Nat → Nat → Nat → Language Char} {alphabet : Option Alphabet}
  {text q : List Char} {d : Dfa}

/-! ## Errors in their order -/

/-- What comes of a text if `q` is what is read: the first failure of those on the way, or a
generator that returns the words of the pattern and fails only for want of numbers to draw,
wherever these come from, be it from random words or not. The words depend on what ranges of
numerals stand for. -/
inductive Makes (ranges : Nat → Nat → Nat → Language Char) (alphabet : Option Alphabet)
    (text q : List Char) : Except GeneratorError Generator → Prop where
  | emptyPattern : text = [] → Makes ranges alphabet text q (.error .emptyPattern)
  | malformed {e : SyntaxError} :
      text ≠ [] → Pattern.parse ⟨extensions, alphabet⟩ q = .error e →
      Makes ranges alphabet text q (.error (.malformed e))
  | unresolved {p : Pattern} {name : String} {names : List String} :
      text ≠ [] → Pattern.parse ⟨extensions, alphabet⟩ q = .ok p →
      p.references = name :: names →
      Makes ranges alphabet text q (.error (.unresolved ⟨name, none⟩))
  | emptyLanguage {p : Pattern} :
      text ≠ [] → Pattern.parse ⟨extensions, alphabet⟩ q = .ok p → p.references = [] →
      (∀ w, w ∉ p.languageOf ranges alphabet Environment.empty.language) →
      Makes ranges alphabet text q (.error .emptyLanguage)
  | generator {p : Pattern} {g : Generator} :
      text ≠ [] → Pattern.parse ⟨extensions, alphabet⟩ q = .ok p → p.references = [] →
      (∃ w, w ∈ p.languageOf ranges alphabet Environment.empty.language) →
      g.Returns (p.languageOf ranges alphabet Environment.empty.language) →
      (∀ w, w ∈ p.languageOf ranges alphabet Environment.empty.language ↔
        ∃ source rest, g.generate source = .ok (w, rest)) →
      (∀ source fault, g.generate source = .error fault → fault = .sourceExhausted) →
      Makes ranges alphabet text q (.ok g)

theorem ofDfa_eq_error (h : d.WellFormed) (hnone : ∀ w, d.accepts w = false) :
    ofDfa d = .error .emptyLanguage := by
  have hempty : d.minimized.isEmpty = true := by
    rcases h.minimized_cases with ⟨-, w, hw⟩ | ⟨heq, -⟩
    · rw [hnone w] at hw
      cases hw
    · rw [heq]
      rfl
  exact if_pos hempty

/-- The generator for an automaton that has the language of a pattern. -/
theorem makes_ofDfa {p : Pattern} (htext : text ≠ [])
    (hparse : Pattern.parse ⟨extensions, alphabet⟩ q = .ok p) (hrefs : p.references = [])
    (hd : d.WellFormed)
    (hlanguage : d.language = p.languageOf ranges alphabet Environment.empty.language)
    (used : List Char) :
    Makes ranges alphabet text q
      ((ofDfa d).map fun g => { g with usedAlphabet := some used }) := by
  by_cases hsome : ∃ w, d.accepts w = true
  · obtain ⟨hwords, hfaults⟩ :=
      generate_iff (g := ⟨d.minimized, some used⟩) hd hsome rfl
    rw [ofDfa_eq_ok hd hsome]
    refine .generator htext hparse hrefs ?_ ?_ ?_ hfaults
    · rw [← hlanguage]
      exact hsome
    · rw [← hlanguage]
      exact returns_minimized hd hsome rfl
    · rw [← hlanguage]
      exact hwords
  · have hnone : ∀ w, d.accepts w = false := by
      intro w
      rw [Bool.eq_false_iff]
      exact fun hw => hsome ⟨w, hw⟩
    rw [ofDfa_eq_error hd hnone]
    refine .emptyLanguage htext hparse hrefs fun w hw => hsome ⟨w, ?_⟩
    rwa [← hlanguage] at hw

/-- The text without `^` at the beginning. -/
def afterCaret (text : List Char) : List Char :=
  if text.head? = some '^' then text.tail else text

theorem stripAnchors_eq (text : List Char) : stripAnchors text =
    if (afterCaret text).getLast? = some '$' then (afterCaret text).dropLast
    else afterCaret text := rfl

theorem length_stripAnchors_le (text : List Char) :
    (stripAnchors text).length ≤ text.length := by
  have hcaret : (afterCaret text).length ≤ text.length := by
    unfold afterCaret
    split
    · exact text.tail_sublist.length_le
    · exact Nat.le_refl _
  rw [stripAnchors_eq]
  split
  · exact (List.dropLast_sublist _).length_le.trans hcaret
  · exact hcaret

/-- The text without its anchors, escaped or not, is what is read. -/
theorem makes_ofPattern (alphabet : Option Alphabet) (text : List Char) :
    Makes Decimal.computed alphabet text (stripAnchors text) (ofPattern alphabet text) := by
  unfold ofPattern
  by_cases htext : text = []
  · subst htext
    exact .emptyPattern rfl
  have hnonempty : ¬ text.isEmpty = true := by rwa [List.isEmpty_iff]
  rw [if_neg hnonempty]
  unfold Regex.ofText
  cases hparse : Pattern.parse ⟨extensions, alphabet⟩ (stripAnchors text) with
  | error e => exact .malformed htext hparse
  | ok p =>
      cases hrefs : p.references with
      | cons name names =>
          have herror : (⟨p, alphabet⟩ : Regex).toDfa = .error ⟨name, none⟩ :=
            Pattern.compile_eq_error_of_references hrefs
          show Makes _ alphabet text (stripAnchors text)
            ((⟨p, alphabet⟩ : Regex).toDfa.mapError .unresolved >>= _)
          rw [herror]
          exact .unresolved htext hparse hrefs
      | nil =>
          obtain ⟨d, hd⟩ :=
            Pattern.exists_compile_of_references_eq_nil alphabet .empty hrefs
          obtain ⟨e, hwf, hlanguage, rfl⟩ :=
            Pattern.compile_spec Pattern.supplies_empty (congrArg Prod.fst hd)
          have hok : (⟨p, alphabet⟩ : Regex).toDfa = .ok e.minimized := congrArg Prod.fst hd
          show Makes _ alphabet text (stripAnchors text)
            ((⟨p, alphabet⟩ : Regex).toDfa.mapError .unresolved >>= _)
          rw [hok]
          refine makes_ofDfa htext hparse hrefs hwf.canonical_minimized.toWellFormed ?_ _
          rw [language_minimized hwf, hlanguage]

/-- A text of fewer than `2 ^ 32` characters is too short for a width that is not a word. -/
theorem Makes.of_short {result : Except GeneratorError Generator}
    (h : Makes Decimal.computed alphabet text q result) (hshort : q.length < 2 ^ 32) :
    Makes Decimal.language alphabet text q result := by
  have heq : ∀ p, Pattern.parse ⟨extensions, alphabet⟩ q = .ok p →
      p.languageOf Decimal.computed alphabet Environment.empty.language =
        p.languageOf Decimal.language alphabet Environment.empty.language := by
    intro p hparse
    have hbuilt := (Pattern.parse_eq_ok_iff.1 hparse).built
    exact Pattern.languageOf_computed hbuilt.bounded (hbuilt.narrow hshort)
  cases h with
  | emptyPattern htext => exact .emptyPattern htext
  | malformed htext hparse => exact .malformed htext hparse
  | unresolved htext hparse hrefs => exact .unresolved htext hparse hrefs
  | emptyLanguage htext hparse hrefs hnone =>
      rw [heq _ hparse] at hnone
      exact .emptyLanguage htext hparse hrefs hnone
  | generator htext hparse hrefs hsome hreturns hwords hfaults =>
      rw [heq _ hparse] at hsome hreturns hwords
      exact .generator htext hparse hrefs hsome hreturns hwords hfaults

theorem Makes.eq_malformed {result : Except GeneratorError Generator} {e : SyntaxError}
    (h : Makes ranges alphabet text q result) (htext : text ≠ [])
    (he : Pattern.parse ⟨extensions, alphabet⟩ q = .error e) :
    result = .error (.malformed e) := by
  cases h with
  | emptyPattern hnil => exact absurd hnil htext
  | malformed _ hparse =>
      rw [he] at hparse
      cases hparse
      rfl
  | unresolved _ hparse | emptyLanguage _ hparse | generator _ hparse =>
      rw [he] at hparse
      cases hparse

/-! ## Anchors -/

/-- The text ends with a dollar sign that belongs to the backslash before it. -/
def EndsEscaped (text : List Char) : Prop :=
  text.getLast? = some '$' ∧ Odd (trailingBackslashes text.dropLast)

instance (text : List Char) : Decidable (EndsEscaped text) :=
  inferInstanceAs (Decidable (_ ∧ _))

/-- The text without `^` at the beginning and without `$` at the end unless it is escaped. -/
def unanchored (text : List Char) : List Char :=
  let text := afterCaret text
  if text.getLast? = some '$' ∧ ¬ EndsEscaped text then text.dropLast else text

theorem stripAnchors_eq_unanchored (h : ¬ EndsEscaped (afterCaret text)) :
    stripAnchors text = unanchored text := by
  rw [stripAnchors_eq, unanchored]
  simp only [h, not_false_eq_true, and_true]

/-- Without its dollar sign a text that ends with an escaped one is not read. -/
theorem exists_parse_eq_error (n : Notation) (h : EndsEscaped (afterCaret text)) :
    ∃ e, Pattern.parse n (stripAnchors text) = .error e := by
  obtain ⟨hlast, hodd⟩ := h
  rw [stripAnchors_eq, if_pos hlast]
  cases hparse : Pattern.parse n (afterCaret text).dropLast with
  | error e => exact ⟨e, rfl⟩
  | ok p => exact absurd (Pattern.parse_eq_ok_iff.1 hparse).even (Nat.not_even_iff_odd.2 hodd)

theorem ne_nil_of_endsEscaped (h : EndsEscaped (afterCaret text)) : text ≠ [] := by
  rintro rfl
  cases h.1

/-- A text makes a generator of the words that it stands for without its anchors, or fails
as it is read or compiled, in this order. The words are those that the automaton of the
pattern accepts, and for texts that are short enough all words of the pattern. A text that
ends with an escaped dollar sign is malformed. -/
theorem ofPattern_spec (alphabet : Option Alphabet) (text : List Char) :
    (¬ EndsEscaped (afterCaret text) →
      Makes Decimal.computed alphabet text (unanchored text) (ofPattern alphabet text) ∧
      (text.length < 2 ^ 32 →
        Makes Decimal.language alphabet text (unanchored text) (ofPattern alphabet text))) ∧
    (EndsEscaped (afterCaret text) →
      ∃ e, ofPattern alphabet text = .error (.malformed e) ∧
        Pattern.parse ⟨extensions, alphabet⟩ (afterCaret text).dropLast = .error e) := by
  have hmakes := makes_ofPattern alphabet text
  constructor
  · intro h
    have hlength := length_stripAnchors_le text
    rw [stripAnchors_eq_unanchored h] at hmakes hlength
    exact ⟨hmakes, fun hshort => hmakes.of_short (Nat.lt_of_le_of_lt hlength hshort)⟩
  · intro h
    obtain ⟨e, he⟩ := exists_parse_eq_error ⟨extensions, alphabet⟩ h
    have hresult := hmakes.eq_malformed (ne_nil_of_endsEscaped h) he
    rw [stripAnchors_eq, if_pos h.1] at he
    exact ⟨e, hresult, he⟩

/-- An escaped backslash between two anchors. -/
def escapedBackslash : List Char := ['^', 'a', '\\', '\\', '$']

/-- An escaped dollar sign. -/
def escapedDollar : List Char := ['a', '\\', '$']

theorem ofPattern_spec_escapes :
    escapedBackslash.length < 2 ^ 32 ∧
    ¬ EndsEscaped (afterCaret escapedBackslash) ∧
    Makes Decimal.language none escapedBackslash ['a', '\\', '\\']
      (ofPattern none escapedBackslash) ∧
    (∃ g, ofPattern none escapedBackslash = .ok g ∧ ∃ steps source rest,
      g.automaton.walk Random.Source.draw? steps source = .ok (['a', '\\'], rest)) ∧
    EndsEscaped (afterCaret escapedDollar) ∧
    ∃ e, ofPattern none escapedDollar = .error (.malformed e) := by
  have hplain : ¬ EndsEscaped (afterCaret escapedBackslash) := by decide
  have hescaped : EndsEscaped (afterCaret escapedDollar) := by decide
  have hshort : escapedBackslash.length < 2 ^ 32 := by decide
  have hmakes : Makes Decimal.language none escapedBackslash ['a', '\\', '\\']
      (ofPattern none escapedBackslash) :=
    ((ofPattern_spec none escapedBackslash).1 hplain).2 hshort
  obtain ⟨e, he, -⟩ := (ofPattern_spec none escapedDollar).2 hescaped
  refine ⟨hshort, hplain, hmakes, ?_, hescaped, e, he⟩
  have hread : Pattern.parse ⟨extensions, none⟩ ['a', '\\', '\\'] =
      .ok (.literal ['a', '\\']) := by
    decide +kernel
  have hok : ∃ g, ofPattern none escapedBackslash = .ok g :=
    ⟨⟨(Dfa.ofWord ['a', '\\']).minimized, some ['\\', 'a']⟩, by decide +kernel⟩
  obtain ⟨g, hg⟩ := hok
  rw [hg] at hmakes
  cases hmakes with
  | generator _ hparse _ _ hreturns =>
      rw [hread] at hparse
      cases hparse
      exact ⟨g, hg, hreturns.attained Random.Source.attains_draw? _ rfl⟩

/-- The escaped dollar sign stands for a word, and there is no generator for it. -/
theorem ofPattern_spec_not_general :
    ¬ ∀ alphabet text, text.length < 2 ^ 32 →
      Makes Decimal.language alphabet text (unanchored text) (ofPattern alphabet text) := by
  intro h
  have hread : Pattern.parse ⟨extensions, none⟩ (unanchored escapedDollar) =
      .ok (.literal ['a', '$']) := by
    decide +kernel
  have hresult : ofPattern none escapedDollar = .error (.malformed ⟨2, .unexpectedEnd⟩) := by
    decide +kernel
  have hmakes := h none escapedDollar (by decide)
  rw [hresult] at hmakes
  cases hmakes with
  | malformed _ hparse =>
      rw [hread] at hparse
      cases hparse

end Generator

end PatternAutomata
