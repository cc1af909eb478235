import PatternAutomata.Pattern.Compilation
import PatternAutomata.Proofs.Complement
import PatternAutomata.Proofs.Numerals
import PatternAutomata.Proofs.Product

/-!
# Compilation keeps the language

The automaton of a pattern accepts the words of the pattern. References stand for the
languages of the automata that they are resolved to; what the table and the provider hand
out has to be well-formed, and need not be minimal. Ranges of numerals stand for the
numerals that their automata accept, which are all of them unless a width is no word.

The proof follows the tree. What has been compiled of a chain of unions or concatenations
is a list of automata, and stands for the sum or the product of their languages
(`Piece.language`); closing a piece and merging it into a longer chain of its kind keep
that language.

## Main results

* `yields_bind_iff`: the computations that look up names, step by step.
* `compilePiece_spec`: a piece is well-formed and has the language of its pattern.
* `compile_language`: the automaton of a pattern has the language of the pattern.
* `compile_language_not_general`: not so for a range of numerals that is too wide.
-/

namespace PatternAutomata

open scoped Computability

/-! ## Looking up names -/

namespace Resolving

variable {α β : Type} {asked asked' : List String}

/-- The computation succeeds with a value; the names asked for before and after it are
recorded. -/
def Yields (x : Resolving α) (asked : List String) (a : α) (asked' : List String) : Prop :=
  x.run.run asked = (.ok a, asked')

@[simp] theorem yields_pure_iff {a b : α} :
    Yields (pure a) asked b asked' ↔ a = b ∧ asked = asked' := by
  rw [Yields, show (pure a : Resolving α).run.run asked = (.ok a, asked) from rfl,
    Prod.mk.injEq, Except.ok.injEq]

theorem run_bind (x : Resolving α) (f : α → Resolving β) (asked : List String) :
    (x >>= f).run.run asked = match x.run.run asked with
      | (.ok a, between) => (f a).run.run between
      | (.error e, between) => (.error e, between) := by
  show (x.run >>= ExceptT.bindCont f).run asked = _
  rw [StateT.run_bind]
  show (match x.run.run asked with
    | (result, between) => (ExceptT.bindCont f result).run between) = _
  rcases x.run.run asked with ⟨result, between⟩
  cases result <;> rfl

/-- A sequence of two computations succeeds if both do, one after the other. -/
theorem yields_bind_iff {x : Resolving α} {f : α → Resolving β} {b : β} :
    Yields (x >>= f) asked b asked' ↔
      ∃ a between, Yields x asked a between ∧ Yields (f a) between b asked' := by
  unfold Yields
  rw [run_bind]
  rcases x.run.run asked with ⟨result, between⟩
  cases result with
  | error e =>
      constructor
      · intro h
        cases h
      · intro h
        obtain ⟨_, _, heq, -⟩ := h
        cases heq
  | ok a =>
      constructor
      · intro h
        exact ⟨a, between, rfl, h⟩
      · intro h
        obtain ⟨_, _, heq, h⟩ := h
        cases heq
        exact h

theorem outcome_eq_ok_iff {x : Resolving α} {a : α} :
    x.outcome.1 = .ok a ↔ ∃ asked, Yields x [] a asked := by
  unfold Yields outcome
  constructor
  · intro h
    exact ⟨(x.run.run []).2, Prod.ext h rfl⟩
  · intro h
    obtain ⟨asked, h⟩ := h
    rw [h]

end Resolving

open Resolving

namespace Environment

variable {env : Environment} {name : String} {d : Dfa} {asked asked' : List String}

/-- All automata that the table and the provider hand out have a property. -/
structure Supplies (env : Environment) (P : Dfa → Prop) : Prop where
  table : ∀ name d, env.table name = some d → P d
  provider : ∀ ask, env.provider = some ask → ∀ name d, ask name = .ok (some d) → P d

/-- The table or, for a name that it does not have, the provider has the automaton. -/
inductive Finds (env : Environment) (name : String) (d : Dfa) : Prop where
  | table : env.table name = some d → Finds env name d
  | provider {ask : String → Except String (Option Dfa)} :
      env.table name = none → env.provider = some ask → ask name = .ok (some d) →
      Finds env name d

theorem finds_of_yields (h : Yields (env.resolve name) asked d asked') : env.Finds name d := by
  unfold resolve at h
  cases htable : env.table name with
  | some e =>
      rw [htable] at h
      obtain ⟨rfl, -⟩ := yields_pure_iff.1 h
      exact .table htable
  | none =>
      rw [htable] at h
      cases hprovider : env.provider with
      | none =>
          rw [hprovider] at h
          cases h
      | some ask =>
          rw [hprovider] at h
          cases hask : ask name with
          | error report =>
              simp only [hask] at h
              cases h
          | ok answer =>
              cases answer with
              | none =>
                  simp only [hask] at h
                  cases h
              | some e =>
                  simp only [hask] at h
                  cases h
                  exact .provider htable hprovider hask

theorem Finds.eq_ok (h : env.Finds name d) : (env.resolve name).outcome.1 = .ok d := by
  unfold resolve
  cases h with
  | table htable =>
      rw [htable]
      rfl
  | provider htable hprovider hask =>
      rw [htable, hprovider]
      simp only [hask]
      rfl

theorem Supplies.of_finds {P : Dfa → Prop} (h : env.Supplies P) (hfinds : env.Finds name d) :
    P d := by
  cases hfinds with
  | table htable => exact h.table name d htable
  | provider _ hprovider hask => exact h.provider _ hprovider name d hask

/-- The language of the automaton that a name is resolved to. -/
def language (env : Environment) (name : String) : Language Char :=
  match (env.resolve name).outcome.1 with
  | .ok d => d.language
  | .error _ => 0

theorem Finds.language_eq (h : env.Finds name d) : env.language name = d.language := by
  rw [language, h.eq_ok]

end Environment

/-! ## Pieces -/

namespace Pattern

open Dfa

variable {alphabet : Option Alphabet} {env : Environment} {p : Pattern} {d : Dfa}

namespace Piece

variable {piece : Piece}

/-- The automata that a piece is made of. -/
def parts : Piece → List Dfa
  | alternatives ds => ds
  | sequence ds => ds
  | single d => [d]

/-- All automata of a piece are well-formed. -/
def WellFormed (piece : Piece) : Prop := ∀ d ∈ piece.parts, d.WellFormed

/-- The words of a piece that is not part of a longer chain. -/
noncomputable def language : Piece → Language Char
  | alternatives ds => (ds.map Dfa.language).sum
  | sequence ds => (ds.map Dfa.language).prod
  | single d => d.language

@[simp] theorem wellFormed_single : (single d).WellFormed ↔ d.WellFormed := by
  simp [WellFormed, parts]

theorem WellFormed.close (h : piece.WellFormed) : piece.close.WellFormed := by
  cases piece with
  | alternatives ds => exact (canonical_union h).toWellFormed.canonical_minimized.toWellFormed
  | sequence ds => exact (canonical_concat h).toWellFormed.canonical_minimized.toWellFormed
  | single d => exact wellFormed_single.1 h

theorem WellFormed.language_close (h : piece.WellFormed) :
    piece.close.language = piece.language := by
  cases piece with
  | alternatives ds =>
      have hds : ∀ d ∈ ds, d.WellFormed := h
      rw [Piece.close, language_minimized (canonical_union hds).toWellFormed,
        language_union hds]
      rfl
  | sequence ds =>
      have hds : ∀ d ∈ ds, d.WellFormed := h
      rw [Piece.close, language_minimized (canonical_concat hds).toWellFormed,
        language_concat hds]
      rfl
  | single d => rfl

/-- What a piece brings into a union has the words of the piece. -/
theorem WellFormed.toAlternatives (h : piece.WellFormed) :
    (∀ d ∈ piece.toAlternatives, d.WellFormed) ∧
    (piece.toAlternatives.map Dfa.language).sum = piece.language := by
  cases piece with
  | alternatives ds => exact ⟨h, rfl⟩
  | sequence ds =>
      refine ⟨wellFormed_single.2 h.close, ?_⟩
      rw [← h.language_close]
      exact add_zero _
  | single d => exact ⟨h, add_zero _⟩

/-- What a piece brings into a concatenation has the words of the piece. -/
theorem WellFormed.toSequence (h : piece.WellFormed) :
    (∀ d ∈ piece.toSequence, d.WellFormed) ∧
    (piece.toSequence.map Dfa.language).prod = piece.language := by
  cases piece with
  | alternatives ds =>
      refine ⟨wellFormed_single.2 h.close, ?_⟩
      rw [← h.language_close]
      exact mul_one _
  | sequence ds => exact ⟨h, rfl⟩
  | single d => exact ⟨h, mul_one _⟩

/-- The piece is well-formed and has the language. -/
def Has (piece : Piece) (l : Language Char) : Prop := piece.WellFormed ∧ piece.language = l

variable {l l' : Language Char} {first second : Piece}

theorem has_single (h : d.WellFormed) (heq : d.language = l) : (single d).Has l :=
  ⟨wellFormed_single.2 h, heq⟩

theorem Has.union (h : first.Has l) (h' : second.Has l') :
    (alternatives (first.toAlternatives ++ second.toAlternatives)).Has (l + l') := by
  obtain ⟨hfirst, hl⟩ := h.1.toAlternatives
  obtain ⟨hsecond, hl'⟩ := h'.1.toAlternatives
  constructor
  · intro d hd
    rcases List.mem_append.1 hd with hd | hd
    · exact hfirst d hd
    · exact hsecond d hd
  · rw [language, List.map_append, List.sum_append, hl, hl', h.2, h'.2]

theorem Has.concat (h : first.Has l) (h' : second.Has l') :
    (sequence (first.toSequence ++ second.toSequence)).Has (l * l') := by
  obtain ⟨hfirst, hl⟩ := h.1.toSequence
  obtain ⟨hsecond, hl'⟩ := h'.1.toSequence
  constructor
  · intro d hd
    rcases List.mem_append.1 hd with hd | hd
    · exact hfirst d hd
    · exact hsecond d hd
  · rw [language, List.map_append, List.prod_append, hl, hl', h.2, h'.2]

theorem Has.inter (h : first.Has l) (h' : second.Has l') :
    (single (first.close.inter second.close).minimized).Has (l ⊓ l') := by
  have hinter := (canonical_inter h.1.close h'.1.close).toWellFormed
  refine has_single hinter.canonical_minimized.toWellFormed ?_
  rw [language_minimized hinter, Dfa.language_inter h.1.close h'.1.close, h.1.language_close,
    h'.1.language_close, h.2, h'.2]

/-- An operation on automata that is one on languages is so on pieces. -/
theorem Has.apply {f : Dfa → Dfa} (h : piece.Has l)
    (hwf : ∀ d : Dfa, d.WellFormed → (f d).WellFormed)
    (hf : ∀ d : Dfa, d.WellFormed → d.language = l → (f d).language = l') :
    (piece.apply f).Has l' := by
  have hclose := h.1.close
  refine has_single (hwf _ hclose).canonical_minimized.toWellFormed ?_
  rw [language_minimized (hwf _ hclose)]
  exact hf _ hclose (h.1.language_close.trans h.2)

end Piece

/-! ## Patterns -/

theorem wellFormed_anyCharDfa (alphabet : Option Alphabet) :
    (anyCharDfa alphabet).WellFormed := by
  cases alphabet with
  | none => exact wellFormed_ofRange _ _
  | some a => exact wellFormed_ofChars a.chars

theorem language_anyCharDfa (alphabet : Option Alphabet) :
    (anyCharDfa alphabet).language = (domain alphabet).language := by
  cases alphabet with
  | some a => exact language_ofChars a.chars
  | none =>
      ext w
      have hmem : ∀ c, c ∈ domain none ↔ c ∈ Alphabet.printableRange := by
        intro c
        rw [domain, IntervalSet.mem_insert IntervalSet.canonical_empty]
        exact or_iff_left (IntervalSet.not_mem_empty c)
      refine mem_language_ofRange.trans ?_
      constructor
      · intro hw
        obtain ⟨c, hlo, hhi, rfl⟩ := hw
        exact ⟨c, (hmem c).2 ⟨hlo, hhi⟩, rfl⟩
      · intro hw
        obtain ⟨c, hc, rfl⟩ := hw
        exact ⟨c, ((hmem c).1 hc).1, ((hmem c).1 hc).2, rfl⟩

/-- Each piece that compilation yields has the language of its pattern. -/
theorem compilePiece_spec (h : env.Supplies Dfa.WellFormed) {asked asked' : List String}
    {piece : Piece} (hpiece : Yields (compilePiece alphabet env p) asked piece asked') :
    piece.Has (p.languageOf Decimal.computed alphabet env.language) := by
  induction p generalizing asked asked' piece with
  | union a b iha ihb =>
      obtain ⟨first, _, hfirst, hrest⟩ := yields_bind_iff.1 hpiece
      obtain ⟨second, _, hsecond, hrest⟩ := yields_bind_iff.1 hrest
      obtain ⟨rfl, -⟩ := yields_pure_iff.1 hrest
      exact (iha hfirst).union (ihb hsecond)
  | concat a b iha ihb =>
      obtain ⟨first, _, hfirst, hrest⟩ := yields_bind_iff.1 hpiece
      obtain ⟨second, _, hsecond, hrest⟩ := yields_bind_iff.1 hrest
      obtain ⟨rfl, -⟩ := yields_pure_iff.1 hrest
      exact (iha hfirst).concat (ihb hsecond)
  | inter a b iha ihb =>
      obtain ⟨first, _, hfirst, hrest⟩ := yields_bind_iff.1 hpiece
      obtain ⟨second, _, hsecond, hrest⟩ := yields_bind_iff.1 hrest
      obtain ⟨rfl, -⟩ := yields_pure_iff.1 hrest
      exact (iha hfirst).inter (ihb hsecond)
  | optional a ih =>
      obtain ⟨body, _, hbody, hrest⟩ := yields_bind_iff.1 hpiece
      obtain ⟨rfl, -⟩ := yields_pure_iff.1 hrest
      refine (ih hbody).apply (fun d hd => (canonical_optional hd).toWellFormed) ?_
      intro d hd heq
      rw [language_optional hd, heq]
      rfl
  | star a ih =>
      obtain ⟨body, _, hbody, hrest⟩ := yields_bind_iff.1 hpiece
      obtain ⟨rfl, -⟩ := yields_pure_iff.1 hrest
      refine (ih hbody).apply (fun d hd => (canonical_star hd).toWellFormed) ?_
      intro d hd heq
      rw [language_star hd, heq]
      rfl
  | atLeast min a ih =>
      obtain ⟨body, _, hbody, hrest⟩ := yields_bind_iff.1 hpiece
      obtain ⟨rfl, -⟩ := yields_pure_iff.1 hrest
      refine (ih hbody).apply (fun d hd => (canonical_atLeast hd min).toWellFormed) ?_
      intro d hd heq
      rw [language_atLeast hd, heq]
      rfl
  | between min max a ih =>
      obtain ⟨body, _, hbody, hrest⟩ := yields_bind_iff.1 hpiece
      obtain ⟨rfl, -⟩ := yields_pure_iff.1 hrest
      refine (ih hbody).apply (fun d hd => (canonical_between hd min max).toWellFormed) ?_
      intro d hd heq
      ext w
      rw [mem_language_between hd, heq]
      rfl
  | complement a ih =>
      obtain ⟨body, _, hbody, hrest⟩ := yields_bind_iff.1 hpiece
      obtain ⟨rfl, -⟩ := yields_pure_iff.1 hrest
      refine (ih hbody).apply (fun d hd => hd.complement) ?_
      intro d hd heq
      rw [language_complement hd, heq]
      rfl
  | char c =>
      obtain ⟨rfl, -⟩ := yields_pure_iff.1 hpiece
      exact Piece.has_single (wellFormed_ofChar c) (language_ofChar c)
  | range lo hi =>
      obtain ⟨rfl, -⟩ := yields_pure_iff.1 hpiece
      refine Piece.has_single (wellFormed_ofRange lo hi) ?_
      ext w
      exact mem_language_ofRange
  | anyChar =>
      obtain ⟨rfl, -⟩ := yields_pure_iff.1 hpiece
      exact Piece.has_single (wellFormed_anyCharDfa alphabet) (language_anyCharDfa alphabet)
  | anyWord =>
      obtain ⟨rfl, -⟩ := yields_pure_iff.1 hpiece
      exact Piece.has_single wellFormed_anyWord language_anyWord
  | empty =>
      obtain ⟨rfl, -⟩ := yields_pure_iff.1 hpiece
      exact Piece.has_single canonical_empty.toWellFormed language_empty
  | literal text =>
      obtain ⟨rfl, -⟩ := yields_pure_iff.1 hpiece
      exact Piece.has_single (wellFormed_ofWord text) (language_ofWord text)
  | reference name =>
      obtain ⟨d, _, hd, hrest⟩ := yields_bind_iff.1 hpiece
      obtain ⟨rfl, -⟩ := yields_pure_iff.1 hrest
      have hfinds := Environment.finds_of_yields hd
      exact Piece.has_single (h.of_finds hfinds) hfinds.language_eq.symm
  | numerals lo hi width =>
      obtain ⟨rfl, -⟩ := yields_pure_iff.1 hpiece
      exact Piece.has_single (canonical_numerals lo hi width).toWellFormed
        (language_numerals lo hi width)

/-- What compilation yields is the minimal automaton of some well-formed one that has the
language of the pattern. -/
theorem compile_eq_ok_iff : (p.compile alphabet env).outcome.1 = .ok d ↔
    ∃ piece asked, Yields (compilePiece alphabet env p) [] piece asked ∧
      piece.close.minimized = d := by
  rw [outcome_eq_ok_iff]
  constructor
  · intro h
    obtain ⟨asked, h⟩ := h
    obtain ⟨piece, between, hpiece, hrest⟩ := yields_bind_iff.1 h
    exact ⟨piece, between, hpiece, (yields_pure_iff.1 hrest).1⟩
  · intro h
    obtain ⟨piece, asked, hpiece, heq⟩ := h
    exact ⟨asked, yields_bind_iff.2 ⟨piece, asked, hpiece, yields_pure_iff.2 ⟨heq, rfl⟩⟩⟩

/-- What a pattern is compiled to is the minimal automaton of its language. -/
theorem compile_spec (h : env.Supplies Dfa.WellFormed)
    (hd : (p.compile alphabet env).outcome.1 = .ok d) :
    ∃ e : Dfa, e.WellFormed ∧ e.language = p.languageOf Decimal.computed alphabet env.language ∧
      d = e.minimized := by
  obtain ⟨piece, asked, hpiece, rfl⟩ := compile_eq_ok_iff.1 hd
  obtain ⟨hwf, hlanguage⟩ := compilePiece_spec h hpiece
  exact ⟨piece.close, hwf.close, hwf.language_close.trans hlanguage, rfl⟩

/-- If the bounds and the widths of ranges of numerals are words, all numerals of the
ranges are accepted. -/
theorem languageOf_computed {named : String → Language Char} (hbounded : p.Bounded)
    (hnarrow : p.Narrow) :
    p.languageOf Decimal.computed alphabet named = p.language alphabet named :=
  languageOf_congr (hbounded.and hnarrow) fun _ _ _ h => Decimal.computed_eq h.1.1 h.1.2 h.2

/-- If a pattern is compiled to an automaton, the automaton accepts exactly the words of
the pattern, whatever well-formed automata its names stand for, if the widths of ranges of
numerals are words. In general numbers beyond the greatest one of a width are missing. -/
theorem compile_language (alphabet : Option Alphabet) (env : Environment)
    (h : env.Supplies Dfa.WellFormed) (p : Pattern) (d : Dfa)
    (hd : (p.compile alphabet env).outcome.1 = .ok d) :
    d.language = p.languageOf Decimal.computed alphabet env.language ∧
    (p.Bounded → p.Narrow → d.language = p.language alphabet env.language) := by
  obtain ⟨e, hwf, hlanguage, rfl⟩ := compile_spec h hd
  have hcomputed : e.minimized.language =
      p.languageOf Decimal.computed alphabet env.language := by
    rw [language_minimized hwf, hlanguage]
  refine ⟨hcomputed, fun hbounded hnarrow => ?_⟩
  rw [hcomputed, languageOf_computed hbounded hnarrow]

/-- A table with one automaton, which is not minimal. -/
def splitTable : Environment :=
  ⟨fun name => if name = "split" then some splitRange else none, none⟩

/-- The words over `a, b, c`, as that automaton reads them, except for `a`, and numerals. -/
def repeatedSplit : Pattern :=
  .union (.inter (.star (.reference "split")) (.complement (.literal ['a'])))
    (.numerals 5 7 1)

/-- The automaton that this pattern is compiled to. -/
def repeatedSplitDfa : Dfa :=
  ⟨0, [⟨true, [⟨⟨'5', '7', by decide⟩, 1⟩, ⟨.singleton 'a', 2⟩, ⟨⟨'b', 'c', by decide⟩, 3⟩]⟩,
    ⟨true, []⟩, ⟨false, [⟨⟨'a', 'c', by decide⟩, 3⟩]⟩, ⟨true, [⟨⟨'a', 'c', by decide⟩, 3⟩]⟩]⟩

theorem compile_language_repeatedSplit :
    splitTable.Supplies Dfa.WellFormed ∧
    (repeatedSplit.compile none splitTable).outcome.1 = .ok repeatedSplitDfa ∧
    repeatedSplit.Bounded ∧ repeatedSplit.Narrow ∧
    repeatedSplitDfa.language = repeatedSplit.language none splitTable.language := by
  have hsupplies : splitTable.Supplies Dfa.WellFormed := by
    constructor
    · intro name d hd
      have hsplit : d = splitRange := by
        by_cases hname : name = "split"
        · simpa [splitTable, hname] using hd.symm
        · simp [splitTable, hname] at hd
      rw [hsplit]
      exact ⟨by decide, by decide, by decide⟩
    · intro ask hask
      cases hask
  have hcompile : (repeatedSplit.compile none splitTable).outcome.1 = .ok repeatedSplitDfa := by
    decide +kernel
  have hbounded : repeatedSplit.Bounded :=
    ⟨trivial, ⟨trivial, ⟨trivial, trivial⟩, trivial, trivial⟩, by decide, by decide⟩
  have hnarrow : repeatedSplit.Narrow :=
    ⟨trivial, ⟨trivial, ⟨trivial, trivial⟩, trivial, trivial⟩, show 1 < 2 ^ 32 by decide⟩
  exact ⟨hsupplies, hcompile, hbounded, hnarrow,
    (compile_language none splitTable hsupplies repeatedSplit _ hcompile).2 hbounded hnarrow⟩

/-- A range of numerals of a width that is not a word: as one it is zero, and no number of
the range has so few digits. -/
def wideRange : Pattern := .numerals 5 12 4294967296

/-- The range has numerals, and its automaton accepts none of them. -/
theorem compile_language_not_general :
    ¬ ∀ (alphabet : Option Alphabet) (env : Environment), env.Supplies Dfa.WellFormed →
      ∀ (p : Pattern) (d : Dfa), (p.compile alphabet env).outcome.1 = .ok d →
        d.language = p.language alphabet env.language := by
  intro h
  have hcompile : (wideRange.compile none .empty).outcome.1 = .ok .empty := by decide +kernel
  have hlanguage := h none .empty ⟨nofun, nofun⟩ wideRange .empty hcompile
  have hword : Decimal.render _ 5 ∈ wideRange.language none Environment.empty.language :=
    Decimal.render_mem_language (by decide) (by decide)
  rw [← hlanguage, language_empty] at hword
  exact hword

end Pattern

end PatternAutomata
