import PatternAutomata.Proofs.Compilation

/-!
# What compilation depends on

Apart from the automaton that it ends with, compiling a pattern does what looking up its
names from left to right does (`forget_compile`): it fails at the same name and asks the
provider for the same names. The automaton is the minimal one of the language of the
pattern. So two patterns with the same names in the same order are compiled in the same way
if and only if they have the same language, unless a name is not found.

## Main results

* `forget_compile`: names that are asked for, and failures.
* `outcome_compile_eq`: patterns that are compiled alike for different alphabets and in
  different environments.
* `outcome_compile_eq_iff`: patterns that are compiled in the same way.
-/

namespace PatternAutomata

/-! ## Forgetting the value of a computation -/

namespace Resolving

variable {α β : Type}

/-- The computation without its value. -/
def forget (x : Resolving α) : Resolving Unit := x >>= fun _ => pure ()

theorem forget_bind_pure (x : Resolving α) (f : α → β) :
    forget (x >>= fun a => pure (f a)) = forget x := by
  unfold forget
  rw [bind_assoc]
  simp only [pure_bind]

theorem forget_bind_bind_pure {γ : Type} (x : Resolving α) (y : Resolving β) (f : α → β → γ) :
    forget (x >>= fun a => y >>= fun b => pure (f a b)) = forget x >>= fun _ => forget y := by
  unfold forget
  simp only [bind_assoc, pure_bind]

@[simp] theorem outcome_forget (x : Resolving α) :
    (forget x).outcome = (x.outcome.1.map fun _ => (), x.outcome.2) := by
  unfold forget outcome
  rw [run_bind]
  rcases x.run.run [] with ⟨result, asked⟩
  cases result <;> rfl

/-- A computation succeeds if it does when its value is forgotten. -/
theorem exists_outcome_of_forget {x : Resolving α} {u : Unit} {asked : List String}
    (h : (forget x).outcome = (.ok u, asked)) : ∃ a, x.outcome = (.ok a, asked) := by
  rw [outcome_forget, Prod.mk.injEq] at h
  obtain ⟨hresult, hasked⟩ := h
  cases hx : x.outcome.1 with
  | ok a => exact ⟨a, Prod.ext hx hasked⟩
  | error e =>
      rw [hx] at hresult
      cases hresult

theorem outcome_error_of_forget {x : Resolving α} {e : UnresolvedReference}
    {asked : List String} (h : (forget x).outcome = (.error e, asked)) :
    x.outcome = (.error e, asked) := by
  rw [outcome_forget, Prod.mk.injEq] at h
  obtain ⟨hresult, hasked⟩ := h
  cases hx : x.outcome.1 with
  | ok a =>
      rw [hx] at hresult
      cases hresult
  | error e' =>
      rw [hx] at hresult
      cases hresult
      exact Prod.ext hx hasked

/-- Computations that differ only in their values fail together, and ask for the same
names. -/
theorem outcome_eq_of_forget_eq {x y : Resolving α} (h : forget x = forget y)
    (heq : ∀ a b, x.outcome.1 = .ok a → y.outcome.1 = .ok b → a = b) :
    x.outcome = y.outcome := by
  have houtcome := congrArg outcome h
  rw [outcome_forget, outcome_forget, Prod.mk.injEq] at houtcome
  obtain ⟨hresult, hasked⟩ := houtcome
  refine Prod.ext ?_ hasked
  cases hx : x.outcome.1 with
  | error e =>
      cases hy : y.outcome.1 with
      | error e' =>
          rw [hx, hy] at hresult
          cases hresult
          rfl
      | ok b =>
          rw [hx, hy] at hresult
          cases hresult
  | ok a =>
      cases hy : y.outcome.1 with
      | error e =>
          rw [hx, hy] at hresult
          cases hresult
      | ok b => rw [heq a b hx hy]

end Resolving

open Resolving

/-! ## Looking up the names of a pattern -/

namespace Environment

/-- Looks up names from left to right, up to the first that is not found. -/
def lookUpAll (env : Environment) : List String → Resolving Unit
  | [] => pure ()
  | name :: names => forget (env.resolve name) >>= fun _ => lookUpAll env names

theorem lookUpAll_append (env : Environment) (names names' : List String) :
    env.lookUpAll (names ++ names') =
      env.lookUpAll names >>= fun _ => env.lookUpAll names' := by
  induction names with
  | nil => rfl
  | cons name names ih =>
      rw [List.cons_append, lookUpAll, lookUpAll, ih, bind_assoc]

/-! ## Automata for names -/

variable {env : Environment} {named : String → Dfa}

/-- The automaton that a name is resolved to; the empty one if it is not found. -/
def automaton (env : Environment) (name : String) : Dfa :=
  match (env.resolve name).outcome.1 with
  | .ok d => d
  | .error _ => Dfa.empty

theorem language_automaton (env : Environment) :
    (fun name => (env.automaton name).language) = env.language := by
  funext name
  unfold automaton language
  cases (env.resolve name).outcome.1 with
  | ok d => rfl
  | error e => exact Dfa.language_empty

/-- Well-formed automata make well-formed automata for all names. -/
theorem Supplies.automaton (h : env.Supplies Dfa.WellFormed) (name : String) :
    (env.automaton name).WellFormed := by
  unfold Environment.automaton
  cases hresolve : (env.resolve name).outcome.1 with
  | ok d =>
      obtain ⟨asked, hyields⟩ := Resolving.outcome_eq_ok_iff.1 hresolve
      exact h.of_finds (finds_of_yields hyields)
  | error e => exact Dfa.canonical_empty.toWellFormed

/-- The environment with an automaton for every name. -/
def ofAutomata (named : String → Dfa) : Environment := ⟨fun name => some (named name), none⟩

theorem supplies_ofAutomata (h : ∀ name, (named name).WellFormed) :
    (ofAutomata named).Supplies Dfa.WellFormed := by
  constructor
  · intro name d hd
    cases hd
    exact h name
  · intro ask hask
    cases hask

theorem language_ofAutomata (named : String → Dfa) :
    (ofAutomata named).language = fun name => (named name).language := by
  funext name
  exact (Finds.table rfl).language_eq

@[simp] theorem lookUpAll_ofAutomata (names : List String) :
    (ofAutomata named).lookUpAll names = pure () := by
  induction names with
  | nil => rfl
  | cons name names ih =>
      rw [lookUpAll, ih]
      rfl

end Environment

namespace Pattern

variable {alphabet : Option Alphabet} {env : Environment} {p q : Pattern}

@[simp] theorem forget_compilePiece (alphabet : Option Alphabet) (env : Environment) (p : Pattern) :
    forget (compilePiece alphabet env p) = env.lookUpAll p.references := by
  induction p with
  | union a b iha ihb | concat a b iha ihb | inter a b iha ihb =>
      rw [compilePiece, forget_bind_bind_pure, iha, ihb, references,
        Environment.lookUpAll_append]
  | optional a ih | star a ih | atLeast _ a ih | between _ _ a ih | complement a ih =>
      rw [compilePiece, forget_bind_pure, ih, references]
  | reference name =>
      rw [compilePiece, forget_bind_pure, references]
      exact (bind_pure _).symm
  | _ => rfl

/-- Compiling a pattern fails and asks for names as looking up its names does. -/
@[simp] theorem forget_compile (alphabet : Option Alphabet) (env : Environment) (p : Pattern) :
    forget (p.compile alphabet env) = env.lookUpAll p.references := by
  rw [compile, forget_bind_pure, forget_compilePiece]

theorem exists_compile_ofAutomata (alphabet : Option Alphabet) (named : String → Dfa)
    (p : Pattern) : ∃ d, (p.compile alphabet (.ofAutomata named)).outcome.1 = .ok d := by
  have hlookups : (forget (p.compile alphabet (.ofAutomata named))).outcome = (.ok (), []) := by
    rw [forget_compile, Environment.lookUpAll_ofAutomata]
    rfl
  obtain ⟨d, hd⟩ := exists_outcome_of_forget hlookups
  exact ⟨d, congrArg Prod.fst hd⟩

/-- Patterns whose names are looked up alike are compiled alike if they have the same
language, be it for different alphabets and in different environments. -/
theorem outcome_compile_eq {alphabet' : Option Alphabet} {env' : Environment}
    (h : env.Supplies Dfa.WellFormed) (h' : env'.Supplies Dfa.WellFormed)
    (hnames : env.lookUpAll p.references = env'.lookUpAll q.references)
    (hlanguage : ∀ d, (p.compile alphabet env).outcome.1 = .ok d →
      p.languageOf Decimal.computed alphabet env.language =
        q.languageOf Decimal.computed alphabet' env'.language) :
    (p.compile alphabet env).outcome = (q.compile alphabet' env').outcome := by
  refine outcome_eq_of_forget_eq ?_ ?_
  · rw [forget_compile, forget_compile, hnames]
  · intro d d' hd hd'
    have hsame := hlanguage d hd
    obtain ⟨e, hewf, he, rfl⟩ := compile_spec h hd
    obtain ⟨f, hfwf, hf, rfl⟩ := compile_spec h' hd'
    rw [hewf.minimized_eq_iff hfwf, ← Dfa.language_eq_iff, he, hf, hsame]

/-- Patterns with the same names are compiled in the same way if they have the same
language, and only then unless a name is not found. -/
theorem outcome_compile_eq_iff (h : env.Supplies Dfa.WellFormed)
    (hnames : p.references = q.references) :
    (p.compile alphabet env).outcome = (q.compile alphabet env).outcome ↔
      ∀ d, (p.compile alphabet env).outcome.1 = .ok d →
        p.languageOf Decimal.computed alphabet env.language =
          q.languageOf Decimal.computed alphabet env.language := by
  constructor
  · intro heq d hd
    obtain ⟨e, hewf, he, rfl⟩ := compile_spec h hd
    rw [heq] at hd
    obtain ⟨f, hfwf, hf, hmin⟩ := compile_spec h hd
    rw [← he, ← hf, ← Dfa.language_minimized hewf, hmin, Dfa.language_minimized hfwf]
  · exact outcome_compile_eq h h (by rw [hnames])

end Pattern

end PatternAutomata
