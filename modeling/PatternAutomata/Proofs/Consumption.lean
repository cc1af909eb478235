import Mathlib.Algebra.Group.Nat.Even
import PatternAutomata.Pattern.Grammar

/-!
# What a derivation uses up

A form of the notation stands for a beginning of the text, so what follows it is a suffix.
More can be said about where a form may end. A backslash outside of quotes, classes and
names belongs to the character after it, and these three end with a character of their own.
So a form never ends in the middle of an escape: the number of backslashes at its end is
even. In particular no text stands for a pattern if a single backslash is left at its end.

## Main results

* `Alternatives.consumes`: a derivation uses up a beginning without an open escape.
* `Consumes.suffix`: what it leaves is a suffix of the text.
* `Pattern.Reads.even`: no text with an open escape at its end stands for a pattern.
-/

namespace PatternAutomata

/-- The number of backslashes at the end of a text. -/
def trailingBackslashes (s : List Char) : Nat := (s.reverse.takeWhile (· = '\\')).length

/-- What stands between a text and a rest of it ends with an even number of backslashes. -/
def Consumes (s rest : List Char) : Prop :=
  ∃ u, s = u ++ rest ∧ Even (trailingBackslashes u)

section Consumes

variable {x : Char} {s t u v rest : List Char}

theorem trailingBackslashes_append :
    trailingBackslashes (u ++ v) =
      if trailingBackslashes v = v.length then v.length + trailingBackslashes u
      else trailingBackslashes v := by
  unfold trailingBackslashes
  rw [List.reverse_append, List.takeWhile_append, List.length_reverse]
  split
  · rw [List.length_append, List.length_reverse]
  · rfl

theorem even_trailingBackslashes_append (hu : Even (trailingBackslashes u))
    (hv : Even (trailingBackslashes v)) : Even (trailingBackslashes (u ++ v)) := by
  rw [trailingBackslashes_append]
  split
  · next hall => exact (hall ▸ hv).add hu
  · exact hv

theorem trailingBackslashes_concat (hx : x ≠ '\\') : trailingBackslashes (u ++ [x]) = 0 := by
  simp [trailingBackslashes, hx]

theorem Consumes.refl (s : List Char) : Consumes s s := ⟨[], rfl, Even.zero⟩

theorem Consumes.trans (h : Consumes s t) (h' : Consumes t rest) : Consumes s rest := by
  obtain ⟨u, rfl, hu⟩ := h
  obtain ⟨v, rfl, hv⟩ := h'
  exact ⟨u ++ v, (List.append_assoc u v rest).symm, even_trailingBackslashes_append hu hv⟩

theorem Consumes.suffix (h : Consumes s rest) : rest <:+ s := by
  obtain ⟨u, rfl, -⟩ := h
  exact List.suffix_append u rest

/-- Up to a character other than the backslash no escape is left open. -/
theorem consumes_of_suffix (h : x :: rest <:+ s) (hx : x ≠ '\\') : Consumes s rest := by
  obtain ⟨u, rfl⟩ := h
  refine ⟨u ++ [x], by simp, ?_⟩
  rw [trailingBackslashes_concat hx]
  exact Even.zero

theorem consumes_cons (hx : x ≠ '\\') (rest : List Char) : Consumes (x :: rest) rest :=
  consumes_of_suffix (List.suffix_refl _) hx

theorem consumes_escape (x : Char) (rest : List Char) : Consumes ('\\' :: x :: rest) rest := by
  by_cases hx : x = '\\'
  · subst hx
    exact ⟨['\\', '\\'], rfl, by decide⟩
  · exact consumes_of_suffix (List.suffix_cons _ _) hx

end Consumes

namespace Grammar

variable {n : Notation} {s t rest : List Char} {p q : Pattern} {x : Char}

/-! ## Forms that are not composed -/

theorem Member.suffix (h : Member s x rest) : rest <:+ s := by
  cases h with
  | bare => exact List.suffix_cons _ _
  | escaped => exact (List.suffix_cons _ _).trans (List.suffix_cons _ _)

theorem Item.suffix (h : Item s p rest) : rest <:+ s := by
  cases h with
  | single hmember => exact hmember.suffix
  | dash hmember => exact (List.suffix_cons _ _).trans hmember.suffix
  | range hlo _ hhi => exact hhi.suffix.trans ((List.suffix_cons _ _).trans hlo.suffix)

theorem Items.suffix (h : Items s p q rest) : ']' :: rest <:+ s := by
  induction h with
  | done => exact List.suffix_refl _
  | more _ hitem _ ih => exact ih.trans hitem.suffix

theorem ClassBody.suffix (h : ClassBody s p rest) : ']' :: rest <:+ s := by
  cases h with
  | intro hitem hitems => exact hitems.suffix.trans hitem.suffix

theorem Integer.suffix {k : Nat} (h : Integer s k rest) : rest <:+ s := by
  cases h with
  | intro => exact List.suffix_append _ _

theorem Repetition.suffix {f : Pattern → Pattern} (h : Repetition s f rest) :
    '}' :: rest <:+ s := by
  cases h with
  | exactly hmin => exact hmin.suffix
  | atLeast hmin => exact (List.suffix_cons _ _).trans hmin.suffix
  | between hmin hmax _ => exact hmax.suffix.trans ((List.suffix_cons _ _).trans hmin.suffix)

theorem GroupStart.suffix (h : GroupStart s rest) : rest <:+ s := by
  cases h with
  | none => exact List.suffix_refl _
  | flags => exact (List.suffix_append _ _).trans (List.suffix_cons _ _)
  | flagsColon =>
      exact ((List.suffix_cons _ _).trans (List.suffix_append _ _)).trans (List.suffix_cons _ _)

theorem Quantifier.consumes {f : Pattern → Pattern} (h : Quantifier s f rest) :
    Consumes s rest := by
  cases h with
  | optional | star | plus => exact consumes_cons (by decide) _
  | braces h => exact consumes_of_suffix (h.suffix.trans (List.suffix_cons _ _)) (by decide)

theorem Quantifiers.consumes (h : Quantifiers s p q rest) : Consumes s rest := by
  induction h with
  | done => exact .refl _
  | more hquantifier _ ih => exact hquantifier.consumes.trans ih

/-! ## The levels -/

mutual

theorem Alternatives.consumes {s rest : List Char} {p : Pattern} :
    Alternatives n s p rest → Consumes s rest
  | .last h _ => h.consumes
  | .more h h' => (h.consumes.trans (consumes_cons (by decide) _)).trans h'.consumes

theorem Conjunction.consumes {s rest : List Char} {p : Pattern} :
    Conjunction n s p rest → Consumes s rest
  | .last h _ => h.consumes
  | .more _ h h' => (h.consumes.trans (consumes_cons (by decide) _)).trans h'.consumes

theorem Sequence.consumes {s rest : List Char} {p : Pattern} :
    Sequence n s p rest → Consumes s rest
  | .last h _ => h.consumes
  | .more h _ h' => h.consumes.trans h'.consumes

theorem Quantified.consumes {s rest : List Char} {p : Pattern} :
    Quantified n s p rest → Consumes s rest
  | .intro h h' => h.consumes.trans h'.consumes

theorem Negated.consumes {s rest : List Char} {p : Pattern} :
    Negated n s p rest → Consumes s rest
  | .tilde _ h => (consumes_cons (by decide) _).trans h.consumes
  | .bare _ h => h.consumes

theorem Simple.consumes {s rest : List Char} {p : Pattern} :
    Simple n s p rest → Consumes s rest
  | .bracket _ h => consumes_of_suffix (h.suffix.trans (List.suffix_cons _ _)) (by decide)
  | .negatedBracket h =>
    consumes_of_suffix (h.suffix.trans ((List.suffix_cons _ _).trans (List.suffix_cons _ _)))
      (by decide)
  | .anyChar _ => consumes_cons (by decide) _
  | .empty _ _ => consumes_cons (by decide) _
  | .anyWord _ _ => consumes_cons (by decide) _
  | .quoted _ _ =>
    consumes_of_suffix ((List.suffix_append _ _).trans (List.suffix_cons _ _)) (by decide)
  | .emptyGroup h => consumes_of_suffix (h.suffix.trans (List.suffix_cons _ _)) (by decide)
  | .group h _ h' =>
    consumes_of_suffix (h'.consumes.suffix.trans (h.suffix.trans (List.suffix_cons _ _)))
      (by decide)
  | .angle _ _ _ =>
    consumes_of_suffix ((List.suffix_append _ _).trans (List.suffix_cons _ _)) (by decide)
  | .classEscape _ _ => consumes_escape _ _
  | .escape _ _ => consumes_escape _ _
  | .plain rest hplain => consumes_cons (fun hx => hplain (Or.inl (by simp [hx]))) rest

end

end Grammar

open Grammar

/-- A text with an odd number of backslashes at its end stands for no pattern. -/
theorem Pattern.Reads.even {n : Notation} {s : List Char} {p : Pattern} (h : Reads n s p) :
    Even (trailingBackslashes s) := by
  cases h with
  | empty => exact Even.zero
  | text _ hderived =>
      obtain ⟨u, rfl, heven⟩ := hderived.consumes
      rwa [List.append_nil]

end PatternAutomata
