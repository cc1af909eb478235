import PatternAutomata.Proofs.Canonicity
import PatternAutomata.Proofs.Lockstep
import PatternAutomata.Proofs.Rereading
import PatternAutomata.Proofs.Usage
import PatternAutomata.Regex

/-!
# No alphabet and the printable one

Without an alphabet a pattern is read and compiled by rules of their own: class escapes are
fixed ranges, or the rest of `.` when they are negated, `.` is one range, and the set behind
complements is written down as an interval. With the printable alphabet all of this is
computed from its characters. The trees and the automata on the way differ, and come to the
same: `Twins` relates a tree for one alphabet and a tree for another that have the same
references, words and used characters.

The escape `\s` is the one exception. Without an alphabet it includes the tabulator.

## Main results

* `congruent_twins`: alphabets with the same characters and blanks have twins in all forms.
* `twins_classEscape`: class escapes other than `\s`.
* `Regex.ofText_printable`: the two readings of a text without `\s`.
-/

namespace PatternAutomata

namespace Pattern

open PatternAutomata.Pattern.Parser

variable {alphabet alphabet' : Option Alphabet} {named : String → Language Char}
  {ranges : Nat → Nat → Nat → Language Char} {a b p q : Pattern}

/-! ## Trees that mean the same for different alphabets -/

/-- The first tree for one alphabet and the second for another have the same references,
words and used characters. -/
structure Twins (alphabet alphabet' : Option Alphabet) (p q : Pattern) : Prop where
  references : p.references = q.references
  languageOf : ∀ ranges named,
    p.languageOf ranges alphabet named = q.languageOf ranges alphabet' named
  usedChars : p.usedChars alphabet = q.usedChars alphabet'

theorem usedChars_of_text? {t : List Char} (h : p.text? = some t) :
    p.usedChars alphabet = IntervalSet.ofChars t := by
  cases p with
  | char c =>
      cases h
      rfl
  | literal text =>
      cases h
      rfl
  | _ => cases h

/-- Joined literals mention the characters of both. -/
@[simp] theorem mem_usedChars_join {c : Char} : c ∈ (join a b).usedChars alphabet ↔
    c ∈ a.usedChars alphabet ∨ c ∈ b.usedChars alphabet := by
  rcases join_cases a b with ⟨s, t, ha, hb, heq⟩ | ⟨x, y, s, t, rfl, hy, hb, heq⟩ |
    ⟨x, y, s, t, rfl, ha, hx, heq⟩ | ⟨heq, -⟩
  · rw [heq, usedChars_of_text? ha, usedChars_of_text? hb, usedChars]
    simp
  · rw [heq, usedChars_of_text? hb, mem_usedChars_concat, mem_usedChars_concat,
      usedChars_of_text? hy, usedChars]
    simp [or_assoc]
  · rw [heq, usedChars_of_text? ha, mem_usedChars_concat, mem_usedChars_concat,
      usedChars_of_text? hx, usedChars]
    simp [or_assoc]
  · rw [heq, mem_usedChars_concat]

theorem usedChars_join (a b : Pattern) :
    (join a b).usedChars alphabet = (concat a b).usedChars alphabet :=
  IntervalSet.eq_of_mem_iff (canonical_usedChars _ _) (canonical_usedChars _ _) fun c => by
    simp

/-- Of the alphabet, the words of a tree depend on the set of its characters only. -/
theorem languageOf_congr_domain (h : domain alphabet = domain alphabet') (p : Pattern) :
    p.languageOf ranges alphabet named = p.languageOf ranges alphabet' named := by
  induction p with
  | union a b iha ihb | concat a b iha ihb | inter a b iha ihb =>
      rw [languageOf, languageOf, iha, ihb]
  | optional a ih | star a ih | atLeast _ a ih | between _ _ a ih | complement a ih =>
      rw [languageOf, languageOf, ih]
  | anyChar => rw [languageOf, languageOf, h]
  | _ => rfl

theorem usedChars_congr (h : domain alphabet = domain alphabet')
    (hblanks : blanks alphabet = blanks alphabet') (p : Pattern) :
    p.usedChars alphabet = p.usedChars alphabet' := by
  induction p with
  | union a b iha ihb | concat a b iha ihb | inter a b iha ihb =>
      rw [usedChars, usedChars, iha, ihb]
  | optional a ih | star a ih | atLeast _ a ih | between _ _ a ih => exact ih
  | complement a ih => rw [usedChars, usedChars, h, ih]
  | anyChar | anyWord => exact h
  | empty => exact hblanks
  | _ => rfl

/-- Alphabets with the same characters and blanks have twins in all forms. -/
theorem congruent_twins (h : domain alphabet = domain alphabet')
    (hblanks : blanks alphabet = blanks alphabet') :
    Congruent (Twins alphabet alphabet') where
  refl p := ⟨rfl, fun _ _ => languageOf_congr_domain h p, usedChars_congr h hblanks p⟩
  union ha hb := by
    refine ⟨?_, fun _ _ => ?_, ?_⟩
    · rw [references, references, ha.references, hb.references]
    · rw [Pattern.languageOf, Pattern.languageOf, ha.languageOf, hb.languageOf]
    · rw [usedChars, usedChars, ha.usedChars, hb.usedChars]
  inter ha hb := by
    refine ⟨?_, fun _ _ => ?_, ?_⟩
    · rw [references, references, ha.references, hb.references]
    · rw [Pattern.languageOf, Pattern.languageOf, ha.languageOf, hb.languageOf]
    · rw [usedChars, usedChars, ha.usedChars, hb.usedChars]
  join ha hb := by
    refine ⟨?_, fun _ _ => ?_, ?_⟩
    · rw [references_join, references_join, ha.references, hb.references]
    · rw [languageOf_join, languageOf_join, ha.languageOf, hb.languageOf]
    · rw [usedChars_join, usedChars_join, usedChars, usedChars, ha.usedChars, hb.usedChars]
  optional ha := by
    refine ⟨ha.references, fun _ _ => ?_, ha.usedChars⟩
    rw [Pattern.languageOf, Pattern.languageOf, ha.languageOf]
  star ha := by
    refine ⟨ha.references, fun _ _ => ?_, ha.usedChars⟩
    rw [Pattern.languageOf, Pattern.languageOf, ha.languageOf]
  atLeast min ha := by
    refine ⟨ha.references, fun _ _ => ?_, ha.usedChars⟩
    rw [Pattern.languageOf, Pattern.languageOf, ha.languageOf]
  between min max ha := by
    refine ⟨ha.references, fun _ _ => ?_, ha.usedChars⟩
    rw [Pattern.languageOf, Pattern.languageOf, ha.languageOf]
  complement ha := by
    refine ⟨ha.references, fun _ _ => ?_, ?_⟩
    · rw [Pattern.languageOf, Pattern.languageOf, ha.languageOf]
    · rw [usedChars, usedChars, h, ha.usedChars]

/-! ## Class escapes -/

theorem IsClass.references_eq_nil (h : p.IsClass) : p.references = [] := by
  induction h with
  | union _ _ iha ihb => rw [references, iha, ihb, List.append_nil]
  | exclude _ ih => exact ih
  | _ => rfl

/-- Classes with the same characters are twins. -/
theorem twins_of_isClass (hp : p.IsClass) (hq : q.IsClass)
    (h : p.usedChars alphabet = q.usedChars alphabet') : Twins alphabet alphabet' p q where
  references := by rw [hp.references_eq_nil, hq.references_eq_nil]
  languageOf _ _ := by rw [languageOf_class hp, languageOf_class hq, h]
  usedChars := h

theorem isClass_escapeClass (letter : Char) : (escapeClass letter).2.IsClass := by
  unfold escapeClass
  split
  · exact .range _ _
  · split
    · exact .union (.char _) (.char _)
    · exact .union (.union (.union (.char _) (.range _ _)) (.range _ _)) (.range _ _)

theorem isClass_classEscape_none (letter : Char) : (classEscape none letter).IsClass := by
  unfold classEscape
  dsimp only
  split
  · exact .exclude (isClass_escapeClass _)
  · exact isClass_escapeClass _

theorem domain_printable : domain none = domain (some .printable) := by decide +kernel

theorem blanks_printable : blanks none = blanks (some .printable) := by decide +kernel

theorem twins_printable_of_isClass (hp : p.IsClass) (hq : q.IsClass)
    (h : p.usedChars none = q.usedChars none) : Twins none (some .printable) p q :=
  twins_of_isClass hp hq (h.trans (usedChars_congr domain_printable blanks_printable q))

/-- The fixed ranges of the class escapes other than `\s` are what the printable alphabet
has of the class. -/
theorem twins_classEscape {letter : Char} (h : letter ∈ classLetters) (hs : letter ≠ 's') :
    Twins none (some .printable) (classEscape none letter)
      (classEscape (some .printable) letter) := by
  have hdigit : classEscape (some .printable) 'd' = .range '0' '9' := by decide +kernel
  have hnoDigit : classEscape (some .printable) 'D' =
      .union (.range ' ' '/') (.range ':' '~') := by
    decide +kernel
  have hnoBlank : classEscape (some .printable) 'S' = .range '!' '~' := by decide +kernel
  have hword : classEscape (some .printable) 'w' =
      .union (.union (.union (.range '0' '9') (.range 'A' 'Z')) (.char '_'))
        (.range 'a' 'z') := by
    decide +kernel
  have hnoWord : classEscape (some .printable) 'W' =
      .union (.union (.union (.union (.range ' ' '/') (.range ':' '@')) (.range '[' '^'))
        (.char '`')) (.range '\x7b' '~') := by
    decide +kernel
  simp only [classLetters, List.mem_cons, List.not_mem_nil, or_false, hs, false_or] at h
  have hclass := isClass_classEscape_none letter
  rcases h with rfl | rfl | rfl | rfl | rfl
  · rw [hdigit]
    exact twins_printable_of_isClass hclass (.range _ _) (by decide +kernel)
  · rw [hnoDigit]
    exact twins_printable_of_isClass hclass (.union (.range _ _) (.range _ _))
      (by decide +kernel)
  · rw [hnoBlank]
    exact twins_printable_of_isClass hclass (.range _ _) (by decide +kernel)
  · rw [hword]
    exact twins_printable_of_isClass hclass
      (.union (.union (.union (.range _ _) (.range _ _)) (.char _)) (.range _ _))
      (by decide +kernel)
  · rw [hnoWord]
    exact twins_printable_of_isClass hclass
      (.union (.union (.union (.union (.range _ _) (.range _ _)) (.range _ _)) (.char _))
        (.range _ _))
      (by decide +kernel)

theorem congruent_twins_printable : Congruent (Twins none (some .printable)) :=
  congruent_twins domain_printable blanks_printable

theorem escapesAgree_printable {s : List Char} (h : ¬ ['\\', 's'] <:+: s) :
    EscapesAgree (Twins none (some .printable)) none (some .printable) s := by
  intro letter t ht hletter
  refine twins_classEscape hletter ?_
  rintro rfl
  have hstart : ['\\', 's'] <+: '\\' :: 's' :: t := ⟨t, rfl⟩
  exact h (hstart.isInfix.trans ht.isInfix)

/-- Twins are compiled alike, whatever well-formed automata their names stand for. -/
theorem Twins.outcome_compile_eq (h : Twins alphabet alphabet' p q) {env : Environment}
    (henv : env.Supplies Dfa.WellFormed) :
    (p.compile alphabet env).outcome = (q.compile alphabet' env).outcome :=
  Pattern.outcome_compile_eq henv henv (by rw [h.references]) fun _ _ =>
    h.languageOf Decimal.computed env.language

end Pattern

namespace Regex

/-- A text without `\s` is read alike without an alphabet and with the printable one: with
the same error, or as two expressions that have the same names and used characters and are
compiled, in every environment of well-formed automata, to the same automaton or with the
same failure. -/
theorem ofText_printable (text : List Char) (h : ¬ ['\\', 's'] <:+: text) :
    match ofText ⟨.all, none⟩ text, ofText ⟨.all, some .printable⟩ text with
    | .error e, .error e' => e = e'
    | .ok r, .ok r' =>
      r.names = r'.names ∧ r.usedAlphabet = r'.usedAlphabet ∧
      ∀ env : Environment, env.Supplies Dfa.WellFormed →
        (r.compile env).outcome = (r'.compile env).outcome
    | _, _ => False := by
  unfold ofText
  rcases Pattern.parse_agree Pattern.congruent_twins_printable .all
    (Pattern.escapesAgree_printable h) with ⟨fault, hp, hq⟩ | ⟨p, q, hp, hq, htwins⟩
  · rw [hp, hq]
    rfl
  · rw [hp, hq]
    refine ⟨?_, ?_, fun env henv => htwins.outcome_compile_eq henv⟩
    · show p.names = q.names
      rw [Pattern.names, Pattern.names, htwins.references]
    · show (p.usedChars none).toList = (q.usedChars (some .printable)).toList
      rw [htwins.usedChars]

/-- A negated class escape next to the complement of a reference. -/
def escapeAndName : List Char := "\\D&~<n>".toList

/-- Its trees differ in what the escape stands for. -/
theorem ofText_printable_escapeAndName :
    ¬ ['\\', 's'] <:+: escapeAndName ∧
    ∃ r r', ofText ⟨.all, none⟩ escapeAndName = .ok r ∧
      ofText ⟨.all, some .printable⟩ escapeAndName = .ok r' ∧ r.pattern ≠ r'.pattern ∧
      r.names = r'.names ∧ r.usedAlphabet = r'.usedAlphabet ∧
      ∀ env : Environment, env.Supplies Dfa.WellFormed →
        (r.compile env).outcome = (r'.compile env).outcome := by
  have hnone : ¬ ['\\', 's'] <:+: escapeAndName := by decide
  have hr : ofText ⟨.all, none⟩ escapeAndName =
      .ok ⟨.inter (.exclude (.range '0' '9')) (.complement (.reference "n")), none⟩ := by
    decide +kernel
  have hr' : ofText ⟨.all, some .printable⟩ escapeAndName =
      .ok ⟨.inter (.union (.range ' ' '/') (.range ':' '~')) (.complement (.reference "n")),
        some .printable⟩ := by
    decide +kernel
  have hsame := ofText_printable escapeAndName hnone
  rw [hr, hr'] at hsame
  exact ⟨hnone, _, _, hr, hr', by decide, hsame⟩

end Regex

end PatternAutomata
