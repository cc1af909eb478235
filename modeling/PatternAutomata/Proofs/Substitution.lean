import PatternAutomata.Pattern.Shape
import PatternAutomata.Proofs.Usage

/-!
# Trees in place of names

A reference is one part of the pattern around it, whatever automaton it is resolved to. A
tree in its place takes part in the chains of unions and concatenations that it meets, and
its own parts are minimized on the way. Only the language counts in the end: if the
automaton of each name has the words of the tree that takes its place, the two patterns
have the same words, and hence the same minimal automaton.

## Main results

* `compilePiece_congr`: only the names that occur in a pattern are looked up.
* `languageOf_substitute`: the words of a tree in place of a name.
* `compile_substitute`: references and the trees in their place are compiled alike.
-/

namespace PatternAutomata.Pattern

open Resolving

variable {alphabet : Option Alphabet} {env env' : Environment} {p : Pattern}
  {trees : String → Pattern} {named named' : String → Language Char}
  {ranges : Nat → Nat → Nat → Language Char} {name : String}

/-! ## Names of a pattern -/

@[simp] theorem mem_names : name ∈ p.names ↔ name ∈ p.references := by
  rw [names, Std.ExtTreeSet.mem_toList, Std.ExtTreeSet.mem_ofList, List.contains_iff_mem]

/-- Only the names that occur in a pattern are looked up. -/
theorem compilePiece_congr (h : ∀ name ∈ p.references, env.resolve name = env'.resolve name) :
    compilePiece alphabet env p = compilePiece alphabet env' p := by
  induction p with
  | union a b iha ihb | concat a b iha ihb | inter a b iha ihb =>
      have ha := iha fun name hname => h name (List.mem_append_left _ hname)
      have hb := ihb fun name hname => h name (List.mem_append_right _ hname)
      rw [compilePiece, compilePiece, ha, hb]
  | optional a ih | star a ih | atLeast _ a ih | between _ _ a ih | complement a ih =>
      rw [compilePiece, compilePiece, ih h]
  | reference name => rw [compilePiece, compilePiece, h name (List.mem_singleton_self name)]
  | _ => rfl

theorem compile_congr (h : ∀ name ∈ p.references, env.resolve name = env'.resolve name) :
    p.compile alphabet env = p.compile alphabet env' := by
  rw [compile, compile, compilePiece_congr h]

/-! ## Trees in place of references -/

theorem references_substitute (h : ∀ name ∈ p.references, (trees name).references = []) :
    (p.substitute trees).references = [] := by
  induction p with
  | union a b iha ihb | concat a b iha ihb | inter a b iha ihb =>
      have ha := iha fun name hname => h name (List.mem_append_left _ hname)
      have hb := ihb fun name hname => h name (List.mem_append_right _ hname)
      rw [substitute, references, ha, hb, List.append_nil]
  | optional a ih | star a ih | atLeast _ a ih | between _ _ a ih | complement a ih => exact ih h
  | reference name => exact h name (List.mem_singleton_self name)
  | _ => rfl

/-- The words of a pattern with trees in place of its references are those of the pattern,
if each name stands for the words of its tree. -/
theorem languageOf_substitute
    (h : ∀ name ∈ p.references, (trees name).languageOf ranges alphabet named' = named name) :
    (p.substitute trees).languageOf ranges alphabet named' =
      p.languageOf ranges alphabet named := by
  induction p with
  | union a b iha ihb | concat a b iha ihb | inter a b iha ihb =>
      have ha := iha fun name hname => h name (List.mem_append_left _ hname)
      have hb := ihb fun name hname => h name (List.mem_append_right _ hname)
      rw [substitute, languageOf, languageOf, ha, hb]
  | optional a ih | star a ih | atLeast _ a ih | between _ _ a ih | complement a ih =>
      rw [substitute, languageOf, languageOf, ih h]
  | reference name => exact h name (List.mem_singleton_self name)
  | _ => rfl

/-- The automata of a table for the names of a pattern, and none for other names. -/
def tableFor (p : Pattern) (env : Environment) (name : String) : Dfa :=
  if name ∈ p.references then (env.table name).getD Dfa.empty else Dfa.empty

theorem tableFor_eq {d : Dfa} (hname : name ∈ p.references) (hd : env.table name = some d) :
    p.tableFor env name = d := by
  rw [tableFor, if_pos hname, hd, Option.getD_some]

theorem resolve_tableFor {d : Dfa} (hname : name ∈ p.references)
    (hd : env.table name = some d) :
    env.resolve name = (Environment.ofAutomata (p.tableFor env)).resolve name := by
  simp only [Environment.resolve, Environment.ofAutomata, hd, tableFor_eq hname hd]

theorem wellFormed_tableFor
    (h : ∀ name ∈ p.references, ∃ d, env.table name = some d ∧ d.WellFormed) (name : String) :
    (p.tableFor env name).WellFormed := by
  by_cases hname : name ∈ p.references
  · obtain ⟨d, hd, hwf⟩ := h name hname
    rwa [tableFor_eq hname hd]
  · rw [tableFor, if_neg hname]
    exact Dfa.canonical_empty.toWellFormed

/-- A pattern whose names a table has, as any automata with the words of trees without
references, is compiled to the automaton of the pattern with these trees in place of the
names. -/
theorem compile_substitute (alphabet : Option Alphabet) (env : Environment)
    (trees : String → Pattern) (p : Pattern)
    (htrees : ∀ name ∈ p.names, (trees name).references = [])
    (htable : ∀ name ∈ p.names, ∃ d, env.table name = some d ∧ d.WellFormed ∧
      d.language =
        (trees name).languageOf Decimal.computed alphabet Environment.empty.language) :
    ∃ d, (p.compile alphabet env).outcome = (.ok d, []) ∧
      ((p.substitute trees).compile alphabet .empty).outcome = (.ok d, []) := by
  simp only [mem_names] at htrees htable
  have hrefs := references_substitute htrees
  obtain ⟨d, hd⟩ := exists_compile_of_references_eq_nil alphabet .empty hrefs
  refine ⟨d, ?_, hd⟩
  have hresolve : ∀ name ∈ p.references,
      env.resolve name = (Environment.ofAutomata (p.tableFor env)).resolve name := by
    intro name hname
    obtain ⟨e, he, -⟩ := htable name hname
    exact resolve_tableFor hname he
  have hwf : ∀ name, (p.tableFor env name).WellFormed :=
    wellFormed_tableFor fun name hname =>
      let ⟨e, he, hewf, _⟩ := htable name hname
      ⟨e, he, hewf⟩
  have hlanguage :
      p.languageOf Decimal.computed alphabet
          (Environment.ofAutomata (p.tableFor env)).language =
        (p.substitute trees).languageOf Decimal.computed alphabet
          Environment.empty.language := by
    refine (languageOf_substitute fun name hname => ?_).symm
    obtain ⟨e, he, -, heq⟩ := htable name hname
    rw [Environment.language_ofAutomata, ← heq]
    exact congrArg Dfa.language (tableFor_eq hname he).symm
  have hnames : (Environment.ofAutomata (p.tableFor env)).lookUpAll p.references =
      Environment.empty.lookUpAll (p.substitute trees).references := by
    rw [Environment.lookUpAll_ofAutomata, hrefs]
    rfl
  rw [compile_congr hresolve, ← hd]
  exact outcome_compile_eq (Environment.supplies_ofAutomata hwf) supplies_empty hnames
    fun _ _ => hlanguage

/-- A tree with the words of the automaton in `splitTable`. It is a union, and so joins the
chain of unions that it is put into. -/
def splitTree : String → Pattern := fun _ => .union (.range 'a' 'b') (.char 'c')

/-- References in a union, in a concatenation and below a complement. -/
def threeSplits : Pattern :=
  .union (.reference "split")
    (.concat (.reference "split") (.inter .anyChar (.complement (.reference "split"))))

theorem compile_substitute_threeSplits :
    (∀ name ∈ threeSplits.names, (splitTree name).references = []) ∧
    (∀ name ∈ threeSplits.names, ∃ d, splitTable.table name = some d ∧ d.WellFormed ∧
      d.language =
        (splitTree name).languageOf Decimal.computed none Environment.empty.language) ∧
    ∃ d, (threeSplits.compile none splitTable).outcome = (.ok d, []) ∧
      ((threeSplits.substitute splitTree).compile none .empty).outcome = (.ok d, []) := by
  have htrees : ∀ name ∈ threeSplits.names, (splitTree name).references = [] :=
    fun _ _ => rfl
  have htable : ∀ name ∈ threeSplits.names, ∃ d, splitTable.table name = some d ∧
      d.WellFormed ∧
      d.language =
        (splitTree name).languageOf Decimal.computed none Environment.empty.language := by
    intro name hname
    obtain rfl : name = "split" := by
      simpa [threeSplits, references] using mem_names.1 hname
    have hsplit : Dfa.splitRange.WellFormed := ⟨by decide, by decide, by decide⟩
    have hcompile : ((splitTree "split").compile none .empty).outcome.1 =
        .ok Dfa.splitRange.minimized := by
      decide +kernel
    obtain ⟨e, hwf, hlanguage, heq⟩ := compile_spec supplies_empty hcompile
    refine ⟨Dfa.splitRange, rfl, hsplit, ?_⟩
    rw [← hlanguage, ← Dfa.language_minimized hwf, ← heq, Dfa.language_minimized hsplit]
  exact ⟨htrees, htable, compile_substitute none splitTable splitTree threeSplits htrees htable⟩

end PatternAutomata.Pattern
