import PatternAutomata.Proofs.Consumption
import PatternAutomata.Proofs.Parsing

/-!
# Reading one text with two alphabets

The alphabet of a notation enters the reading of a text at one point, the escapes that stand
for a class. Apart from them the parser goes the same way for all alphabets: it finds the
same fault at the same place, or comes to the same rest. The two trees that it builds have
the same form but for their class escapes.

So a relation of trees that the operations of the parser keep holds of the two trees as soon
as it holds of the class escapes that occur in the text.

## Main results

* `Congruent`: the relations that the parser's operations keep.
* `agree_alternatives`: the two readings on the loosest level.
* `parse_agree`: the two readings of a whole text.
-/

namespace PatternAutomata

/-! ## Outcomes that agree -/

section Agree

variable {α β : Type} {c d : Cursor} {R : α → α → Prop} {S : β → β → Prop}

/-- Two outcomes of a step: the same error, or related values and the same rest. -/
def Result.Agree (R : α → α → Prop) : Result α c → Result α c → Prop
  | .ok a, .ok b => R a.value b.value ∧ a.rest = b.rest
  | .error e, .error e' => e = e'
  | _, _ => False

theorem Result.Agree.of_eq (hR : ∀ a, R a a) (x : Result α c) : x.Agree R x := by
  cases x with
  | error e => rfl
  | ok a => exact ⟨hR a.value, rfl⟩

theorem Result.Agree.cases {x y : Result α c} (h : x.Agree R y) :
    (∃ e, x = .error e ∧ y = .error e) ∨
      ∃ a b rest hrest, x = .ok ⟨a, rest, hrest⟩ ∧ y = .ok ⟨b, rest, hrest⟩ ∧ R a b := by
  cases x with
  | error e =>
      cases y with
      | error e' => exact Or.inl ⟨e, rfl, congrArg Except.error (Eq.symm h)⟩
      | ok b => exact h.elim
  | ok a =>
      cases y with
      | error e' => exact h.elim
      | ok b =>
          obtain ⟨a, rest, hrest⟩ := a
          obtain ⟨b, rest', hrest'⟩ := b
          obtain ⟨hvalue, rfl⟩ := h
          exact Or.inr ⟨a, b, rest, hrest, rfl, rfl, hvalue⟩

/-- Steps that agree are followed by steps that agree. -/
theorem Result.Agree.bind {x y : Result α d} {f g : Parsed α d → Result β c} (h : x.Agree R y)
    (hnext : ∀ a b rest hrest, x = .ok ⟨a, rest, hrest⟩ → R a b →
      (f ⟨a, rest, hrest⟩).Agree S (g ⟨b, rest, hrest⟩)) :
    Result.Agree S (x >>= f) (y >>= g) := by
  rcases h.cases with ⟨e, rfl, rfl⟩ | ⟨a, b, rest, hrest, rfl, rfl, hab⟩
  · rfl
  · exact hnext a b rest hrest rfl hab

/-- The same step is followed by steps that agree. -/
theorem Result.Agree.bind_left {x : Result α d} {f g : Parsed α d → Result β c}
    (hnext : ∀ a, x = .ok a → (f a).Agree S (g a)) : Result.Agree S (x >>= f) (x >>= g) := by
  cases x with
  | error e => rfl
  | ok a => exact hnext a rfl

/-- Steps that agree do so seen from an earlier place, with what is made of their values. -/
theorem Result.Agree.within {x y : Result α d} {f g : α → β} (h : x.Agree R y)
    (hlt : d.chars.length < c.chars.length) (hvalue : ∀ a b, R a b → S (f a) (g b)) :
    Result.Agree S (c := c) (x >>= fun a => pure (a.within hlt f))
      (y >>= fun b => pure (b.within hlt g)) :=
  h.bind fun a b _ _ _ hab => ⟨hvalue a b hab, rfl⟩

end Agree

namespace Pattern

/-- A relation of trees that holds of equal trees and that the operations of the parser
keep. -/
structure Congruent (R : Pattern → Pattern → Prop) : Prop where
  refl : ∀ p, R p p
  union : ∀ {a a' b b'}, R a a' → R b b' → R (union a b) (union a' b')
  inter : ∀ {a a' b b'}, R a a' → R b b' → R (inter a b) (inter a' b')
  join : ∀ {a a' b b'}, R a a' → R b b' → R (join a b) (join a' b')
  optional : ∀ {a a'}, R a a' → R (optional a) (optional a')
  star : ∀ {a a'}, R a a' → R (star a) (star a')
  atLeast : ∀ {a a'} (min : Nat), R a a' → R (atLeast min a) (atLeast min a')
  between : ∀ {a a'} (min max : Nat), R a a' → R (between min max a) (between min max a')
  complement : ∀ {a a'}, R a a' → R (complement a) (complement a')

namespace Parser

open Grammar

variable {R : Pattern → Pattern → Prop} {e : Extensions} {alphabet alphabet' : Option Alphabet}
  {s t : List Char}

/-- The class escapes that occur in a text are related. -/
def EscapesAgree (R : Pattern → Pattern → Prop) (alphabet alphabet' : Option Alphabet)
    (s : List Char) : Prop :=
  ∀ x t, '\\' :: x :: t <:+ s → x ∈ classLetters →
    R (classEscape alphabet x) (classEscape alphabet' x)

theorem EscapesAgree.suffix (h : EscapesAgree R alphabet alphabet' s) (ht : t <:+ s) :
    EscapesAgree R alphabet alphabet' t :=
  fun x u hu => h x u (hu.trans ht)

theorem agree_escaped (hR : Congruent R) {c : Cursor}
    (h : EscapesAgree R alphabet alphabet' ('\\' :: c.chars)) :
    (escaped alphabet c).Agree R (escaped alphabet' c) := by
  unfold escaped
  cases hnext : c.next? with
  | none => rfl
  | some step =>
      obtain ⟨x, rest, hrest⟩ := step
      rw [Cursor.chars_of_next? hnext] at h
      refine ⟨?_, rfl⟩
      by_cases hletter : x ∈ classLetters
      · simp only [if_pos hletter]
        exact h x rest.chars (List.suffix_refl _) hletter
      · simp only [if_neg hletter]
        exact hR.refl _

/-- Quantifiers go onto related patterns. -/
theorem agree_quantifiers (hR : Congruent R) {origin : Cursor} {p q : Pattern} (hpq : R p q)
    (c : Cursor) (h : c.chars.length < origin.chars.length) :
    (quantifiers p c h).Agree R (quantifiers q c h) := by
  rw [quantifiers, quantifiers]
  split
  · exact agree_quantifiers hR (hR.optional hpq) _ _
  · exact agree_quantifiers hR (hR.star hpq) _ _
  · exact agree_quantifiers hR (hR.atLeast 1 hpq) _ _
  · refine Result.Agree.bind_left fun bounds _ => ?_
    obtain ⟨⟨min, max?⟩, rest, hrest⟩ := bounds
    cases max? with
    | none => exact agree_quantifiers hR (hR.atLeast min hpq) rest _
    | some max =>
        by_cases horder : max < min
        · simp only [if_pos horder]
          rfl
        · simp only [if_neg horder]
          exact agree_quantifiers hR (hR.between min max hpq) rest _
  · exact ⟨hpq, rfl⟩
termination_by c.chars.length
decreasing_by all_goals omega

/-! ## The levels -/

section Levels

variable (hR : Congruent R) (e : Extensions) (alphabet alphabet' : Option Alphabet)

include hR

mutual

theorem agree_alternatives (c : Cursor) (h : EscapesAgree R alphabet alphabet' c.chars) :
    (alternatives ⟨e, alphabet⟩ c).Agree R (alternatives ⟨e, alphabet'⟩ c) := by
  rw [alternatives, alternatives]
  refine (agree_conjunction c h).bind fun first first' after hafter heq hfirst => ?_
  have hsuffix : after.chars <:+ c.chars :=
    ((conjunction_gives_iff _ c _ _).1 (gives_of_eq heq)).consumes.suffix
  rcases after.skip?_cases '|' with ⟨⟨⟨⟩, bar, hbar⟩, hskip, hchars⟩ | ⟨hskip, -⟩
  · simp only [hskip]
    have hlt : bar.chars.length < c.chars.length := Nat.lt_trans hbar hafter
    rw [hchars] at hsuffix
    have hbarEscapes := h.suffix ((List.suffix_cons _ _).trans hsuffix)
    exact (agree_alternatives bar hbarEscapes).within hlt fun _ _ => hR.union hfirst
  · simp only [hskip]
    exact ⟨hfirst, rfl⟩
termination_by 8 * c.chars.length + 6
decreasing_by all_goals omega

theorem agree_conjunction (c : Cursor) (h : EscapesAgree R alphabet alphabet' c.chars) :
    (conjunction ⟨e, alphabet⟩ c).Agree R (conjunction ⟨e, alphabet'⟩ c) := by
  rw [conjunction, conjunction]
  refine (agree_sequence c h).bind fun first first' after hafter heq hfirst => ?_
  have hsuffix : after.chars <:+ c.chars :=
    ((sequence_gives_iff _ c _ _).1 (gives_of_eq heq)).consumes.suffix
  by_cases hon : e.intersection = true
  · rcases after.skip?_cases '&' with ⟨⟨⟨⟩, mark, hmark⟩, hskip, hchars⟩ | ⟨hskip, -⟩
    · simp only [if_pos hon, hskip]
      have hlt : mark.chars.length < c.chars.length := Nat.lt_trans hmark hafter
      rw [hchars] at hsuffix
      have hmarkEscapes := h.suffix ((List.suffix_cons _ _).trans hsuffix)
      exact (agree_conjunction mark hmarkEscapes).within hlt fun _ _ => hR.inter hfirst
    · simp only [if_pos hon, hskip]
      exact ⟨hfirst, rfl⟩
  · simp only [if_neg hon]
    exact ⟨hfirst, rfl⟩
termination_by 8 * c.chars.length + 5
decreasing_by all_goals omega

theorem agree_sequence (c : Cursor) (h : EscapesAgree R alphabet alphabet' c.chars) :
    (sequence ⟨e, alphabet⟩ c).Agree R (sequence ⟨e, alphabet'⟩ c) := by
  rw [sequence, sequence]
  refine (agree_quantified c h).bind fun first first' after hafter heq hfirst => ?_
  by_cases hstop : after.peek?.all (endsSequence e) = true
  · simp only [if_pos hstop]
    exact ⟨hfirst, rfl⟩
  · simp only [if_neg hstop]
    have hsuffix : after.chars <:+ c.chars :=
      ((quantified_gives_iff _ c _ _).1 (gives_of_eq heq)).consumes.suffix
    exact (agree_sequence after (h.suffix hsuffix)).within hafter fun _ _ => hR.join hfirst
termination_by 8 * c.chars.length + 4
decreasing_by all_goals omega

theorem agree_quantified (c : Cursor) (h : EscapesAgree R alphabet alphabet' c.chars) :
    (quantified ⟨e, alphabet⟩ c).Agree R (quantified ⟨e, alphabet'⟩ c) := by
  rw [quantified, quantified]
  exact (agree_negated c h).bind fun body body' after hafter _ hbody =>
    agree_quantifiers hR hbody after hafter
termination_by 8 * c.chars.length + 3

theorem agree_negated (c : Cursor) (h : EscapesAgree R alphabet alphabet' c.chars) :
    (negated ⟨e, alphabet⟩ c).Agree R (negated ⟨e, alphabet'⟩ c) := by
  rw [negated, negated]
  by_cases hon : e.complement = true
  · rcases c.skip?_cases '~' with ⟨⟨⟨⟩, after, hafter⟩, hskip, hchars⟩ | ⟨hskip, -⟩
    · simp only [if_pos hon, hskip]
      rw [hchars] at h
      exact (agree_negated after (h.suffix (List.suffix_cons _ _))).within hafter
        fun _ _ => hR.complement
    · simp only [if_pos hon, hskip]
      exact agree_simple c h
  · simp only [if_neg hon]
    exact agree_simple c h
termination_by 8 * c.chars.length + 2
decreasing_by all_goals omega

theorem agree_simple (c : Cursor) (h : EscapesAgree R alphabet alphabet' c.chars) :
    (simple ⟨e, alphabet⟩ c).Agree R (simple ⟨e, alphabet'⟩ c) := by
  rw [simple, simple]
  cases hnext : c.next? with
  | none => rfl
  | some step =>
      obtain ⟨x, after, hafter⟩ := step
      have hchars : c.chars = x :: after.chars := Cursor.chars_of_next? hnext
      rw [hchars] at h
      dsimp only
      by_cases hgroup : x = '('
      · subst hgroup
        exact (agree_group after (h.suffix (List.suffix_cons _ _))).within hafter
          fun _ _ => id
      by_cases hescape : x = '\\'
      · subst hescape
        exact (agree_escaped hR h).within hafter fun _ _ => id
      · -- no other form depends on the alphabet
        simp only [if_neg hgroup, if_neg hescape]
        exact .of_eq hR.refl _
termination_by 8 * c.chars.length + 1

theorem agree_group (c : Cursor) (h : EscapesAgree R alphabet alphabet' c.chars) :
    (group ⟨e, alphabet⟩ c).Agree R (group ⟨e, alphabet'⟩ c) := by
  rw [group, group]
  have hsuffix : (skipFlags c).val.chars <:+ c.chars := (skipFlags_iff.1 rfl).suffix
  revert hsuffix
  rcases skipFlags c with ⟨start, hle⟩
  intro hsuffix
  rcases start.skip?_cases ')' with ⟨⟨⟨⟩, close, hclose⟩, hskip, -⟩ | ⟨hskip, -⟩
  · simp only [hskip]
    exact .of_eq hR.refl _
  · simp only [hskip]
    refine (agree_alternatives start (h.suffix hsuffix)).bind
      fun body body' after hafter _ hbody => ?_
    exact .bind_left fun close _ => ⟨hbody, rfl⟩
termination_by 8 * c.chars.length + 7
decreasing_by all_goals omega

end

end Levels

end Parser

/-- A text is read alike with two alphabets: both readings find the same fault, or they give
related trees. -/
theorem parse_agree {R : Pattern → Pattern → Prop} (hR : Congruent R) (e : Extensions)
    {alphabet alphabet' : Option Alphabet} {s : List Char}
    (h : Parser.EscapesAgree R alphabet alphabet' s) :
    (∃ fault, parse ⟨e, alphabet⟩ s = .error fault ∧ parse ⟨e, alphabet'⟩ s = .error fault) ∨
      ∃ p q, parse ⟨e, alphabet⟩ s = .ok p ∧ parse ⟨e, alphabet'⟩ s = .ok q ∧ R p q := by
  unfold parse
  by_cases hs : s.isEmpty = true
  · rw [if_pos hs, if_pos hs]
    exact Or.inr ⟨_, _, rfl, rfl, hR.refl _⟩
  · rw [if_neg hs, if_neg hs]
    have hagree := Parser.agree_alternatives hR e alphabet alphabet' (Cursor.ofText s) h
    rcases hagree.cases with ⟨fault, hp, hq⟩ | ⟨p, q, rest, hrest, hp, hq, hpq⟩
    · rw [hp, hq]
      exact Or.inl ⟨fault, rfl, rfl⟩
    · rw [hp, hq]
      by_cases hend : rest.chars.isEmpty = true
      · exact Or.inr ⟨p, q, if_pos hend, if_pos hend, hpq⟩
      · exact Or.inl ⟨_, if_neg hend, if_neg hend⟩

end Pattern

end PatternAutomata
