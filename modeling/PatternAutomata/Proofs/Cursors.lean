import Mathlib.Data.List.TakeWhile
import PatternAutomata.Pattern.Grammar

/-!
# Steps of a parser

What a step of a parser gives is seen as a value and the text that is left, without the
place and without the evidence that something was read. In these terms a sequence of steps
is read apart (`gives_bind_iff`), and the steps on single characters, on runs of characters
and on numbers say how the text begins.

## Main results

* `gives_bind_iff`: one step after another.
* `Cursor.skip?_cases`: a character that may be passed.
* `span_iff`, `until_iff`: a maximal run of characters, and the text before a character.
* `Cursor.integer_gives_iff`: a number is read if the grammar has one there.
-/

namespace PatternAutomata

/-! ## Values and rests -/

section Gives

variable {α β : Type} {c d : Cursor} {a : α} {b : β} {rest : List Char}

/-- The step succeeds with a value and leaves a text. -/
def Result.Gives (r : Result α c) (a : α) (rest : List Char) : Prop :=
  ∃ p : Parsed α c, r = .ok p ∧ p.value = a ∧ p.rest.chars = rest

theorem gives_of_eq {r : Result α c} {p : Parsed α c} (h : r = .ok p) :
    r.Gives p.value p.rest.chars := ⟨p, h, rfl, rfl⟩

@[simp] theorem gives_ok_iff {p : Parsed α c} :
    Result.Gives (.ok p) a rest ↔ p.value = a ∧ p.rest.chars = rest := by
  constructor
  · intro h
    obtain ⟨q, heq, hvalue, hrest⟩ := h
    cases heq
    exact ⟨hvalue, hrest⟩
  · intro h
    exact ⟨p, rfl, h.1, h.2⟩

theorem not_gives_error {e : SyntaxError} : ¬ Result.Gives (.error e : Result α c) a rest := by
  intro h
  obtain ⟨p, heq, -⟩ := h
  cases heq

/-- Two steps succeed if both do, one after the other. -/
theorem gives_bind_iff {x : Result α d} {f : Parsed α d → Result β c} :
    Result.Gives (x >>= f) b rest ↔ ∃ p, x = .ok p ∧ (f p).Gives b rest := by
  cases x with
  | error e =>
      constructor
      · intro h
        exact (not_gives_error h).elim
      · intro h
        obtain ⟨p, heq, -⟩ := h
        cases heq
  | ok p =>
      constructor
      · intro h
        exact ⟨p, rfl, h⟩
      · intro h
        obtain ⟨q, heq, h⟩ := h
        cases heq
        exact h

theorem gives_map_iff {x : Result α d} {f : Parsed α d → Parsed β c} :
    Result.Gives (x.map f) b rest ↔
      ∃ p, x = .ok p ∧ (f p).value = b ∧ (f p).rest.chars = rest := by
  cases x with
  | error e =>
      constructor
      · intro h
        exact (not_gives_error h).elim
      · intro h
        obtain ⟨p, heq, -⟩ := h
        cases heq
  | ok p =>
      refine gives_ok_iff.trans ?_
      constructor
      · intro h
        exact ⟨p, rfl, h⟩
      · intro h
        obtain ⟨q, heq, h⟩ := h
        cases heq
        exact h

/-- A step seen from an earlier place. -/
theorem gives_within_iff {x : Result α d} {h : d.chars.length < c.chars.length} :
    Result.Gives (x.map (·.within h id)) a rest ↔ x.Gives a rest := by
  rw [gives_map_iff]
  rfl

theorem gives_bind_within_iff {x : Result α d} {h : d.chars.length < c.chars.length} :
    Result.Gives (x >>= fun r => (pure (r.within h id) : Result α c)) a rest ↔
      x.Gives a rest := by
  rw [gives_bind_iff]
  exact exists_congr fun p => and_congr_right fun _ => gives_ok_iff

end Gives

/-! ## Single characters -/

namespace Cursor

variable {c : Cursor} {x : Char} {rest : List Char}

@[simp] theorem peek?_eq_none_iff : c.peek? = none ↔ c.chars = [] := by
  rw [peek?, List.head?_eq_none_iff]

theorem chars_of_next? {step : Parsed Char c} (h : c.next? = some step) :
    c.chars = step.value :: step.rest.chars := by
  obtain ⟨chars, position⟩ := c
  cases chars with
  | nil => cases h
  | cons y chars =>
      cases h
      rfl

@[simp] theorem next?_eq_none_iff : c.next? = none ↔ c.chars = [] := by
  obtain ⟨chars, position⟩ := c
  cases chars with
  | nil => exact iff_of_true rfl rfl
  | cons y chars => exact iff_of_false (Option.some_ne_none _) (List.cons_ne_nil _ _)

theorem exists_next? (h : c.chars = x :: rest) :
    ∃ after hafter, c.next? = some ⟨x, after, hafter⟩ ∧ after.chars = rest := by
  obtain ⟨chars, position⟩ := c
  cases h
  exact ⟨⟨rest, position + 1⟩, by simp, rfl, rfl⟩

/-- A given character is next and is passed, or it is not next. -/
theorem skip?_cases (c : Cursor) (x : Char) :
    (∃ step, c.skip? x = some step ∧ c.chars = x :: step.rest.chars) ∨
      (c.skip? x = none ∧ c.chars.head? ≠ some x) := by
  obtain ⟨chars, position⟩ := c
  cases chars with
  | nil =>
      right
      exact ⟨rfl, by simp⟩
  | cons y chars =>
      by_cases hy : y = x
      · left
        subst hy
        exact ⟨⟨(), ⟨chars, position + 1⟩, by simp⟩, by simp [skip?, next?], rfl⟩
      · right
        exact ⟨by simp [skip?, next?, hy], by simpa using hy⟩

theorem skip?_eq_none (h : c.chars.head? ≠ some x) : c.skip? x = none := by
  rcases c.skip?_cases x with ⟨step, -, hchars⟩ | ⟨hnone, -⟩
  · rw [hchars] at h
    exact absurd rfl h
  · exact hnone

theorem exists_skip? (h : c.chars = x :: rest) :
    ∃ step, c.skip? x = some step ∧ step.rest.chars = rest := by
  rcases c.skip?_cases x with ⟨step, hstep, hchars⟩ | ⟨-, hhead⟩
  · rw [h] at hchars
    exact ⟨step, hstep, (List.cons.inj hchars).2.symm⟩
  · rw [h] at hhead
    exact absurd rfl hhead

theorem expect_gives_iff : (c.expect x).Gives () rest ↔ c.chars = x :: rest := by
  rw [expect]
  rcases c.skip?_cases x with ⟨step, hstep, hchars⟩ | ⟨hnone, hhead⟩
  · rw [hstep, hchars, List.cons.injEq]
    refine gives_ok_iff.trans ?_
    simp
  · rw [hnone]
    refine iff_of_false not_gives_error ?_
    intro h
    rw [h] at hhead
    exact hhead rfl

theorem chars_of_expect {step : Parsed Unit c} (h : c.expect x = .ok step) :
    c.chars = x :: step.rest.chars := expect_gives_iff.1 (gives_of_eq h)

theorem exists_expect (h : c.chars = x :: rest) :
    ∃ step, c.expect x = .ok step ∧ step.rest.chars = rest := by
  obtain ⟨step, hstep, -, hrest⟩ := expect_gives_iff.2 h
  exact ⟨step, hstep, hrest⟩

theorem skipAny_of_chars_eq (h : c.chars = x :: rest) : (c.skipAny x).val.chars = rest := by
  obtain ⟨step, hstep, hrest⟩ := exists_skip? h
  rw [skipAny, hstep]
  exact hrest

theorem skipAny_of_head?_ne (h : c.chars.head? ≠ some x) : (c.skipAny x).val = c := by
  rw [skipAny, skip?_eq_none h]
  rfl

theorem skipAny_chars_iff {x : Char} : (c.skipAny x).val.chars = rest ↔
    c.chars = x :: rest ∨ (c.chars.head? ≠ some x ∧ c.chars = rest) := by
  by_cases hhead : c.chars.head? = some x
  · obtain ⟨t, ht⟩ := List.head?_eq_some_iff.1 hhead
    rw [skipAny_of_chars_eq ht, ht]
    simp
  · rw [skipAny_of_head?_ne hhead]
    constructor
    · intro h
      exact Or.inr ⟨hhead, h⟩
    · intro h
      rcases h with h | h
      · rw [h] at hhead
        exact absurd rfl hhead
      · exact h.2

end Cursor

/-! ## Runs of characters -/

section Runs

variable {test : Char → Bool} {x : Char} {s text rest : List Char}

/-- The run of characters that pass a test, and what follows it. -/
theorem span_iff : (s.takeWhile test = text ∧ s.dropWhile test = rest) ↔
    s = text ++ rest ∧ (∀ c ∈ text, test c = true) ∧ ∀ c ∈ rest.head?, test c = false := by
  constructor
  · intro h
    obtain ⟨rfl, rfl⟩ := h
    refine ⟨List.takeWhile_append_dropWhile.symm, fun c hc => List.mem_takeWhile_imp hc, ?_⟩
    intro c hc
    have := List.head?_dropWhile_not test s
    rw [Option.mem_def.1 hc] at this
    simpa using this
  · intro h
    obtain ⟨rfl, htext, hrest⟩ := h
    have hstop : rest.takeWhile test = [] ∧ rest.dropWhile test = rest := by
      cases rest with
      | nil => exact ⟨rfl, rfl⟩
      | cons c rest => simp [hrest c rfl]
    rw [List.takeWhile_append_of_pos htext, List.dropWhile_append_of_pos htext, hstop.1, hstop.2,
      List.append_nil]
    exact ⟨rfl, rfl⟩

/-- The text before the first of some character. -/
theorem until_iff : (s.takeWhile (· ≠ x) = text ∧ s.dropWhile (· ≠ x) = x :: rest) ↔
    x ∉ text ∧ s = text ++ x :: rest := by
  rw [span_iff]
  constructor
  · intro h
    obtain ⟨heq, htext, -⟩ := h
    refine ⟨fun hx => ?_, heq⟩
    simpa using htext x hx
  · intro h
    obtain ⟨hx, heq⟩ := h
    refine ⟨heq, fun c hc => ?_, by simp⟩
    have : c ≠ x := fun hcx => hx (hcx ▸ hc)
    simpa using this

theorem dropWhile_ne_eq_nil_iff : s.dropWhile (· ≠ x) = [] ↔ x ∉ s := by
  rw [List.dropWhile_eq_nil_iff]
  constructor
  · intro h hx
    simpa using h x hx
  · intro h c hc
    have : c ≠ x := fun hcx => h (hcx ▸ hc)
    simpa using this

theorem Cursor.run_spec (c : Cursor) (test : Char → Bool) :
    c.chars = c.taken test ++ (c.dropWhile test).chars ∧
      (∀ x ∈ c.taken test, test x = true) ∧
      ∀ x ∈ (c.dropWhile test).chars.head?, test x = false := span_iff.1 ⟨rfl, rfl⟩

end Runs

/-! ## Numbers -/

section Integers

open Grammar

variable {s rest : List Char} {n : Nat}

theorem integer_iff : Integer s n rest ↔
    ∃ ds, s = ds ++ rest ∧ n = Decimal.read ds ∧ ds ≠ [] ∧
      (∀ c ∈ ds, CharClass.isDigit c = true) ∧ NoDigit rest ∧
      Decimal.read ds < Cursor.integerLimit := by
  constructor
  · intro h
    cases h with
    | intro hne hdigits hrest hlimit => exact ⟨_, rfl, rfl, hne, hdigits, hrest, hlimit⟩
  · intro h
    obtain ⟨ds, rfl, rfl, hne, hdigits, hrest, hlimit⟩ := h
    exact .intro hne hdigits hrest hlimit

/-- A number is read exactly where the grammar has one. -/
theorem Cursor.integer_gives_iff {c : Cursor} :
    c.integer.Gives n rest ↔ Integer c.chars n rest := by
  obtain ⟨heq, hdigits, hstop⟩ := c.run_spec CharClass.isDigit
  unfold integer
  dsimp only
  constructor
  · intro h
    split at h
    · next hlt =>
      split at h
      · next hlimit =>
        obtain ⟨rfl, rfl⟩ := gives_ok_iff.1 h
        refine integer_iff.2 ⟨_, heq, rfl, ?_, hdigits, hstop, hlimit⟩
        intro hnil
        rw [hnil, List.nil_append] at heq
        exact Nat.lt_irrefl _ (heq ▸ hlt)
      · exact (not_gives_error h).elim
    · exact (not_gives_error h).elim
  · intro h
    obtain ⟨ds, hchars, hn, hne, hdigits, hstop, hlimit⟩ := integer_iff.1 h
    obtain ⟨htaken, hrest⟩ := span_iff.2 ⟨hchars, hdigits, hstop⟩
    have hlt : (c.dropWhile CharClass.isDigit).chars.length < c.chars.length := by
      show (c.chars.dropWhile CharClass.isDigit).length < _
      have := List.length_pos_iff.2 hne
      rw [hrest, hchars, List.length_append]
      omega
    have hread : Decimal.read (c.taken CharClass.isDigit) = Decimal.read ds :=
      congrArg Decimal.read htaken
    rw [dif_pos hlt, hread, if_pos hlimit]
    exact gives_ok_iff.2 ⟨hn.symm, hrest⟩

end Integers

end PatternAutomata
