import PatternAutomata.Proofs.Printing
import PatternAutomata.Proofs.Resolution

/-!
# Patterns that come back as another

The text of a pattern that was read can always be read again. Joining literals once more
changes nothing that compilation sees, so the only thing that can be lost is the width of a
range of numerals. Bounds with equally many digits that were read from texts of different
lengths, as in `<010-12>`, stand for numerals of any length; they are written `<10-12>`,
which stands for numerals of two digits.

## Main results

* `references_reread`, `languageOf_reread`: what is read again, but for the widths.
* `parse_display_eq_refold`: a tree whose widths can be seen comes back with its literals
  joined.
* `Settled.outcome_compile_reread`: a pattern that was read is compiled like its rereading.
* `parse_display`: when exactly a pattern survives being written and read.
-/

namespace PatternAutomata.Pattern

open scoped Computability

variable {alphabet : Option Alphabet} {env : Environment} {named : String → Language Char}
  {ranges : Nat → Nat → Nat → Language Char} {a b p q : Pattern}

/-! ## Names and languages -/

theorem references_of_text? {t : List Char} (h : p.text? = some t) : p.references = [] := by
  cases p with
  | char => rfl
  | literal => rfl
  | _ => cases h

theorem languageOf_of_text? {t : List Char} (h : p.text? = some t) :
    p.languageOf ranges alphabet named = {t} := by
  cases p with
  | char c =>
      cases h
      rfl
  | literal text =>
      cases h
      rfl
  | _ => cases h

@[simp] theorem references_join (a b : Pattern) :
    (join a b).references = a.references ++ b.references := by
  rcases join_cases a b with ⟨s, t, ha, hb, heq⟩ | ⟨x, y, s, t, rfl, hy, hb, heq⟩ |
    ⟨x, y, s, t, rfl, ha, hx, heq⟩ | ⟨heq, -⟩
  · rw [heq, references_of_text? ha, references_of_text? hb]
    rfl
  · rw [heq, references_of_text? hb, List.append_nil, references, references,
      references_of_text? hy]
    rfl
  · rw [heq, references_of_text? ha, List.nil_append, references, references,
      references_of_text? hx]
    rfl
  · rw [heq, references]

@[simp] theorem languageOf_join (a b : Pattern) : (join a b).languageOf ranges alphabet named =
    a.languageOf ranges alphabet named * b.languageOf ranges alphabet named := by
  have hliteral : ∀ s t : List Char, ({s ++ t} : Language Char) = {s} * {t} := by
    intro s t
    show ({s ++ t} : Set (List Char)) = Set.image2 (· ++ ·) {s} {t}
    rw [Set.image2_singleton]
  rcases join_cases a b with ⟨s, t, ha, hb, heq⟩ | ⟨x, y, s, t, rfl, hy, hb, heq⟩ |
    ⟨x, y, s, t, rfl, ha, hx, heq⟩ | ⟨heq, -⟩
  · rw [heq, languageOf_of_text? ha, languageOf_of_text? hb, languageOf, hliteral]
  · rw [heq, languageOf_of_text? hb, languageOf, languageOf, languageOf, languageOf_of_text? hy,
      hliteral, mul_assoc]
  · rw [heq, languageOf_of_text? ha, languageOf, languageOf, languageOf, languageOf_of_text? hx,
      hliteral, mul_assoc]
  · rw [heq, languageOf]

@[simp] theorem references_refold (p : Pattern) : p.refold.references = p.references := by
  induction p with
  | concat a b iha ihb => rw [refold, references_join, iha, ihb, references]
  | union a b iha ihb | inter a b iha ihb => rw [refold, references, references, iha, ihb]
  | optional a ih | star a ih | atLeast _ a ih | between _ _ a ih | complement a ih =>
      rw [refold, references, references, ih]
  | literal text =>
      rw [refold]
      split <;> rfl
  | _ => rfl

@[simp] theorem references_remeasure (p : Pattern) : p.remeasure.references = p.references := by
  induction p with
  | union a b iha ihb | concat a b iha ihb | inter a b iha ihb =>
      rw [remeasure, references, references, iha, ihb]
  | optional a ih | star a ih | atLeast _ a ih | between _ _ a ih | complement a ih =>
      rw [remeasure, references, references, ih]
  | _ => rfl

/-- Joining literals does not change the language. -/
@[simp] theorem languageOf_refold (p : Pattern) :
    p.refold.languageOf ranges alphabet named = p.languageOf ranges alphabet named := by
  induction p with
  | concat a b iha ihb => rw [refold, languageOf_join, iha, ihb, languageOf]
  | union a b iha ihb | inter a b iha ihb => rw [refold, languageOf, languageOf, iha, ihb]
  | optional a ih | star a ih | atLeast _ a ih | between _ _ a ih | complement a ih =>
      rw [refold, languageOf, languageOf, ih]
  | literal text =>
      rw [refold]
      split
      · next htext => rw [htext]; rfl
      · rfl
  | _ => rfl

@[simp] theorem references_reread (p : Pattern) : p.reread.references = p.references := by
  simp [reread]

theorem languageOf_reread (p : Pattern) :
    p.reread.languageOf ranges alphabet named =
      p.remeasure.languageOf ranges alphabet named := by
  rw [reread, languageOf_refold]

/-! ## Patterns whose widths can be seen -/

theorem writtenWidth_eq {lo hi width : Nat} (hle : lo ≤ hi)
    (h : (width = 0 ∧ Decimal.length lo ≠ Decimal.length hi) ∨
      (width ≠ 0 ∧ Decimal.length hi ≤ width)) : writtenWidth lo hi width = width := by
  have hlength := Decimal.length_mono hle
  unfold writtenWidth
  rw [Decimal.length_render, Decimal.length_render]
  rcases h with ⟨hwidth, hne⟩ | ⟨-, hwidth⟩
  · rw [if_neg (by omega), hwidth]
  · rw [if_pos (by omega)]
    omega

theorem Expressible.remeasure_eq (h : p.Expressible) : p.remeasure = p := by
  induction p with
  | union a b iha ihb | concat a b iha ihb | inter a b iha ihb =>
      rw [remeasure, iha h.2.1, ihb h.2.2]
  | optional a ih | star a ih | atLeast _ a ih | between _ _ a ih | complement a ih =>
      rw [remeasure, ih h.2]
  | numerals lo hi width =>
      obtain ⟨hle, -, hwidth⟩ := h
      rw [remeasure, writtenWidth_eq hle hwidth]
  | _ => rfl

theorem Expressible.writable (h : p.Expressible) : p.Writable := by
  refine h.imp fun q hq => ?_
  cases q with
  | numerals lo hi width =>
      obtain ⟨hle, hlimit, hwidth⟩ := hq
      refine ⟨hle, hlimit, ?_⟩
      rcases hwidth with ⟨hzero, -⟩ | ⟨-, hlength⟩
      · exact Or.inl hzero
      · exact Or.inr hlength
  | _ => exact hq

theorem Expressible.reread_eq (h : p.Expressible) : p.reread = p.refold := by
  rw [reread, h.remeasure_eq]

/-- The text of an expressible tree is read as the tree with its literals joined and a quote
in place of the text that consists of one, whatever joins the tree has left out. -/
theorem parse_display_eq_refold (h : p.Expressible) :
    parse ⟨.all, none⟩ p.display.toList = .ok p.refold := by
  rw [display, String.toList_ofList]
  have hread := parse_render p h.writable
  rwa [h.reread_eq] at hread

/-- A tree with literals side by side, quotes alone and in a text, characters that mean
something in the notation or as an escape, and numerals with and without a width. -/
def unjoined : Pattern :=
  .complement (.inter
    (.concat (.concat (.char '(') (.literal ['a', '"', 'b']))
      (.concat (.char 'd') (.literal ['"'])))
    (.union
      (.between 2 3 (.concat (.numerals 7 12 4) (.range ']' '^')))
      (.atLeast 0 (.concat (.reference "id") (.numerals 7 12 0)))))

theorem parse_display_unjoined :
    parse ⟨.all, none⟩ unjoined.display.toList =
      .ok (.complement (.inter
        (.literal ['(', 'a', '"', 'b', 'd', '"'])
        (.union
          (.between 2 3 (.concat (.numerals 7 12 4) (.range ']' '^')))
          (.atLeast 0 (.concat (.reference "id") (.numerals 7 12 0)))))) := by
  have hexpressible : unjoined.Expressible := by
    unfold unjoined Expressible
    simp only [Every, ExpressibleHere]
    decide +kernel
  exact parse_display_eq_refold hexpressible

/-! ## Patterns that are compiled in the same way -/

/-- Two patterns are compiled to the same pieces and fold with the same neighbours. -/
structure Alike (p q : Pattern) : Prop where
  compilePiece : ∀ alphabet env,
    Pattern.compilePiece alphabet env p = Pattern.compilePiece alphabet env q
  literal : p.IsLiteral ↔ q.IsLiteral
  firstChild : p.firstChild.IsLiteral ↔ q.firstChild.IsLiteral
  lastChild : p.lastChild.IsLiteral ↔ q.lastChild.IsLiteral

theorem alike_self (p : Pattern) : Alike p p := ⟨fun _ _ => rfl, Iff.rfl, Iff.rfl, Iff.rfl⟩

/-- Folding the literals of a settled pattern once more leaves its concatenations alone. -/
theorem Settled.alike_refold (h : p.Settled) : Alike p.refold p := by
  induction p with
  | concat a b iha ihb =>
      obtain ⟨⟨hlast, hfirst⟩, ha, hb⟩ := h
      have ha := iha ha
      have hb := ihb hb
      have hsettled : SettledHere (concat a.refold b.refold) := by
        constructor
        · rw [hb.literal, ha.lastChild]
          exact hlast
        · rw [ha.literal, hb.firstChild]
          exact hfirst
      rw [refold, join_eq_concat hsettled]
      refine ⟨?_, Iff.rfl, ha.literal, hb.literal⟩
      intro alphabet env
      rw [Pattern.compilePiece, Pattern.compilePiece, ha.compilePiece, hb.compilePiece]
  | union a b iha ihb | inter a b iha ihb =>
      refine ⟨?_, Iff.rfl, Iff.rfl, Iff.rfl⟩
      intro alphabet env
      rw [refold, Pattern.compilePiece, Pattern.compilePiece, (iha h.2.1).compilePiece,
        (ihb h.2.2).compilePiece]
  | optional a ih | star a ih | atLeast _ a ih | between _ _ a ih | complement a ih =>
      refine ⟨?_, Iff.rfl, Iff.rfl, Iff.rfl⟩
      intro alphabet env
      rw [refold, Pattern.compilePiece, Pattern.compilePiece, (ih h.2).compilePiece]
  | literal text =>
      rw [refold]
      split
      · next htext =>
        rw [htext]
        refine ⟨?_, Iff.rfl, Iff.rfl, Iff.rfl⟩
        intro alphabet env
        rfl
      · exact alike_self _
  | _ => exact alike_self _

/-- Settled patterns whose widths can be seen are compiled like their rereadings, whatever
the names stand for. -/
theorem Settled.outcome_compile_reread (h : p.Settled) (hexpressible : p.Expressible)
    (alphabet : Option Alphabet) (env : Environment) :
    (p.reread.compile alphabet env).outcome = (p.compile alphabet env).outcome := by
  rw [reread, hexpressible.remeasure_eq, compile, compile, h.alike_refold.compilePiece]

/-! ## Writing and reading again -/

/-- The text of a pattern that was read is read again. If the widths of its ranges of
numerals can be seen, the rereading is compiled in the same way. In general it is so for all
well-formed automata that names may stand for, if and only if the widths that are read off
the written bounds do not change the words that are accepted. -/
theorem parse_display (n : Notation) (s : List Char) (p : Pattern) (h : parse n s = .ok p) :
    parse ⟨.all, none⟩ p.display.toList = .ok p.reread ∧
    (p.Expressible → ∀ alphabet env,
      (p.reread.compile alphabet env).outcome = (p.compile alphabet env).outcome) ∧
    ((∀ alphabet env, env.Supplies Dfa.WellFormed →
      (p.reread.compile alphabet env).outcome = (p.compile alphabet env).outcome) ↔
      ∀ alphabet (named : String → Dfa), (∀ name, (named name).WellFormed) →
        p.remeasure.languageOf Decimal.computed alphabet (fun name => (named name).language) =
          p.languageOf Decimal.computed alphabet fun name => (named name).language) := by
  have hbuilt := (parse_eq_ok_iff.1 h).built
  refine ⟨?_, hbuilt.settled.outcome_compile_reread, ?_, ?_⟩
  · rw [display, String.toList_ofList]
    exact parse_render p hbuilt.writable
  · intro hsame alphabet named hnamed
    have hsupplies := Environment.supplies_ofAutomata hnamed
    obtain ⟨d, hd⟩ := exists_compile_ofAutomata alphabet named p.reread
    have hlanguage := (outcome_compile_eq_iff hsupplies (references_reread p)).1
      (hsame alphabet _ hsupplies) d hd
    rwa [Environment.language_ofAutomata, languageOf_reread] at hlanguage
  · intro hsame alphabet env hsupplies
    refine (outcome_compile_eq_iff hsupplies (references_reread p)).2 ?_
    intro d hd
    have hlanguage := hsame alphabet env.automaton hsupplies.automaton
    rwa [env.language_automaton, ← languageOf_reread] at hlanguage

/-- A range of numerals whose bounds have equally many digits but are not written equally
long. -/
def paddedRange : List Char := ['<', '0', '1', '0', '-', '1', '2', '>']

theorem parse_paddedRange : parse .full paddedRange = .ok (.numerals 10 12 0) := by
  have hlo : Grammar.Integer ['0', '1', '0'] 10 [] :=
    Parser.whole_integer_iff.2 ⟨by decide, List.all_eq_true.1 rfl, show 10 < 4294967296 by omega⟩
  have hhi : Grammar.Integer ['1', '2'] 12 [] :=
    Parser.whole_integer_iff.2 ⟨by decide, List.all_eq_true.1 rfl, show 12 < 4294967296 by omega⟩
  have hangle : Grammar.Angle .all ['0', '1', '0', '-', '1', '2'] (.numerals 10 12 0) :=
    @Grammar.Angle.numerals .all ['0', '1', '0'] ['1', '2'] rfl hlo hhi
  have hclose : '>' ∉ ['0', '1', '0', '-', '1', '2'] := by decide
  have hquantified : Grammar.Quantified .full paddedRange (.numerals 10 12 0) [] :=
    quantified_of_simple (.angle [] hclose hangle) (by decide) (by simp [Unquantified])
  exact parse_eq_ok_iff.2 (.text (by decide) (alternatives_of_quantified hquantified (by simp)))

theorem reread_paddedRange : reread (.numerals 10 12 0) = .numerals 10 12 2 := by
  decide +kernel

theorem parse_display_paddedRange :
    parse .full paddedRange = .ok (.numerals 10 12 0) ∧
    parse ⟨.all, none⟩ (display (.numerals 10 12 0)).toList = .ok (.numerals 10 12 2) := by
  have h := (parse_display .full paddedRange _ parse_paddedRange).1
  rw [reread_paddedRange] at h
  exact ⟨parse_paddedRange, h⟩

/-- The rereading of this range has fewer words. -/
theorem parse_display_not_faithful :
    ¬ ∀ (n : Notation) (s : List Char) (p : Pattern), parse n s = .ok p →
      ∃ q, parse ⟨.all, none⟩ p.display.toList = .ok q ∧
        ∀ alphabet env, (q.compile alphabet env).outcome = (p.compile alphabet env).outcome := by
  intro h
  obtain ⟨q, hq, hsame⟩ := h .full paddedRange _ parse_paddedRange
  have hread : parse ⟨.all, none⟩ (display (.numerals 10 12 0)).toList =
      .ok (.numerals 10 12 2) := by
    rw [display, String.toList_ofList, ← reread_paddedRange]
    exact parse_render (.numerals 10 12 0) ⟨by decide, by decide, Or.inl rfl⟩
  rw [hread, Except.ok.injEq] at hq
  rw [← hq] at hsame
  have hdiffer : (compile none .empty (.numerals 10 12 2)).outcome ≠
      (compile none .empty (.numerals 10 12 0)).outcome := by
    decide +kernel
  exact hdiffer (hsame none .empty)

end PatternAutomata.Pattern
