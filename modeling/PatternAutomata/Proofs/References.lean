import PatternAutomata.Proofs.Substitution

/-!
# Names that are not found

What compiling a pattern asks for and where it fails is decided by its references alone,
read from left to right. Each that is in the table, or that the provider has an automaton
for, is passed; the first that is neither ends the compilation, and what the provider
reported about it goes along. The provider is asked for the names that the table does not
have, up to that one.

Looking up one name either finds an automaton or misses it for one of three reasons
(`Environment.Misses`); the lemmas about lists of names follow by induction.

## Main results

* `Environment.run_lookUpAll`, `Environment.run_lookUpAll_misses`: names one after the
  other.
* `Pattern.compile_references`: results, failures and questions of a compilation.
-/

namespace PatternAutomata

open Resolving

namespace Environment

variable {env env' : Environment} {name : String} {d : Dfa} {report : Option String}
  {names before after asked : List String}

/-- The name is in the table, or the provider has an automaton for it. -/
def Has (env : Environment) (name : String) : Prop :=
  (∃ d, env.table name = some d) ∨
    ∃ ask d, env.provider = some ask ∧ ask name = .ok (some d)

/-- The names that the provider is asked for if some names are looked up. -/
def questions (env : Environment) (names : List String) : List String :=
  match env.provider with
  | none => []
  | some _ => names.filter fun name => (env.table name).isNone

/-- The table does not have the name, and the provider does not help: there is none, or it
does not know the name either, or it fails and reports so. -/
inductive Misses (env : Environment) (name : String) : Option String → Prop
  | absent : env.table name = none → env.provider = none → Misses env name none
  | unknown {ask : String → Except String (Option Dfa)} :
      env.table name = none → env.provider = some ask → ask name = .ok none →
      Misses env name none
  | failed {ask : String → Except String (Option Dfa)} {report : String} :
      env.table name = none → env.provider = some ask → ask name = .error report →
      Misses env name (some report)

/-! ## One name -/

theorem Misses.table_eq_none (h : env.Misses name report) : env.table name = none := by
  cases h with
  | absent htable _ => exact htable
  | unknown htable _ _ => exact htable
  | failed htable _ _ => exact htable

/-- What is reported is what the provider fails with. -/
theorem Misses.report_eq_some_iff (h : env.Misses name report) {r : String} :
    report = some r ↔ ∃ ask, env.provider = some ask ∧ ask name = .error r := by
  cases h with
  | absent _ hprovider => simp [hprovider]
  | unknown _ hprovider hask => simp [hprovider, hask]
  | failed _ hprovider hask => simp [hprovider, hask]

theorem finds_or_misses (env : Environment) (name : String) :
    (∃ d, env.Finds name d) ∨ ∃ report, env.Misses name report := by
  cases htable : env.table name with
  | some d => exact .inl ⟨d, .table htable⟩
  | none =>
      cases hprovider : env.provider with
      | none => exact .inr ⟨none, .absent htable hprovider⟩
      | some ask =>
          cases hask : ask name with
          | error report => exact .inr ⟨some report, .failed htable hprovider hask⟩
          | ok answer =>
              cases answer with
              | none => exact .inr ⟨none, .unknown htable hprovider hask⟩
              | some d => exact .inl ⟨d, .provider htable hprovider hask⟩

theorem Finds.has (h : env.Finds name d) : env.Has name := by
  cases h with
  | table htable => exact .inl ⟨d, htable⟩
  | provider _ hprovider hask => exact .inr ⟨_, d, hprovider, hask⟩

theorem Misses.not_has (h : env.Misses name report) : ¬ env.Has name := by
  rintro (⟨d, hd⟩ | ⟨ask, d, hprovider, hask⟩)
  · rw [h.table_eq_none] at hd
    cases hd
  · cases h with
    | absent _ hprovider' =>
        rw [hprovider'] at hprovider
        cases hprovider
    | unknown _ hprovider' hask' =>
        rw [hprovider', Option.some_inj] at hprovider
        rw [hprovider, hask] at hask'
        cases hask'
    | failed _ hprovider' hask' =>
        rw [hprovider', Option.some_inj] at hprovider
        rw [hprovider, hask] at hask'
        cases hask'

theorem has_iff : env.Has name ↔ ∃ d, env.Finds name d := by
  constructor
  · intro h
    rcases env.finds_or_misses name with hfinds | ⟨report, hmisses⟩
    · exact hfinds
    · exact absurd h hmisses.not_has
  · intro h
    obtain ⟨d, hfinds⟩ := h
    exact hfinds.has

theorem not_has_iff : ¬ env.Has name ↔ ∃ report, env.Misses name report := by
  constructor
  · intro h
    rcases env.finds_or_misses name with ⟨d, hfinds⟩ | hmisses
    · exact absurd hfinds.has h
    · exact hmisses
  · intro h
    obtain ⟨report, hmisses⟩ := h
    exact hmisses.not_has

theorem not_has_empty (name : String) : ¬ empty.Has name :=
  not_has_iff.2 ⟨none, .absent rfl rfl⟩

/-! ## Questions -/

theorem questions_of_provider_eq_none (h : env.provider = none) (names : List String) :
    env.questions names = [] := by
  rw [questions, h]

theorem questions_of_provider_eq_some {ask : String → Except String (Option Dfa)}
    (h : env.provider = some ask) (names : List String) :
    env.questions names = names.filter fun name => (env.table name).isNone := by
  rw [questions, h]

@[simp] theorem questions_nil (env : Environment) : env.questions [] = [] := by
  unfold questions
  cases env.provider with
  | none => rfl
  | some ask => rfl

@[simp] theorem questions_append (env : Environment) (names names' : List String) :
    env.questions (names ++ names') = env.questions names ++ env.questions names' := by
  cases h : env.provider with
  | none => simp only [questions_of_provider_eq_none h, List.append_nil]
  | some ask => simp only [questions_of_provider_eq_some h, List.filter_append]

theorem questions_of_table (h : env.table name = some d) : env.questions [name] = [] := by
  cases hprovider : env.provider with
  | none => exact questions_of_provider_eq_none hprovider _
  | some ask => simp [questions_of_provider_eq_some hprovider, h]

theorem questions_of_ask {ask : String → Except String (Option Dfa)}
    (htable : env.table name = none) (hprovider : env.provider = some ask) :
    env.questions [name] = [name] := by
  simp [questions_of_provider_eq_some hprovider, htable]

/-! ## Names one after the other -/

theorem Finds.run_resolve (h : env.Finds name d) (asked : List String) :
    (env.resolve name).run.run asked = (.ok d, asked ++ env.questions [name]) := by
  cases h with
  | table htable =>
      rw [questions_of_table htable, List.append_nil, resolve, htable]
      rfl
  | provider htable hprovider hask =>
      rw [questions_of_ask htable hprovider, resolve, htable, hprovider]
      simp only [hask]
      rfl

theorem Misses.run_resolve (h : env.Misses name report) (asked : List String) :
    (env.resolve name).run.run asked =
      (.error ⟨name, report⟩, asked ++ env.questions [name]) := by
  cases h with
  | absent htable hprovider =>
      rw [questions_of_provider_eq_none hprovider, List.append_nil, resolve, htable, hprovider]
      rfl
  | unknown htable hprovider hask =>
      rw [questions_of_ask htable hprovider, resolve, htable, hprovider]
      simp only [hask]
      rfl
  | failed htable hprovider hask =>
      rw [questions_of_ask htable hprovider, resolve, htable, hprovider]
      simp only [hask]
      rfl

/-- Names that are all found. -/
theorem run_lookUpAll (h : ∀ name ∈ names, env.Has name) (asked : List String) :
    (env.lookUpAll names).run.run asked = (.ok (), asked ++ env.questions names) := by
  induction names generalizing asked with
  | nil =>
      rw [questions_nil, List.append_nil]
      rfl
  | cons name names ih =>
      obtain ⟨hname, hnames⟩ := List.forall_mem_cons.1 h
      obtain ⟨d, hfinds⟩ := has_iff.1 hname
      rw [lookUpAll, forget, bind_assoc, run_bind, hfinds.run_resolve]
      simp only [pure_bind]
      rw [ih hnames, List.append_assoc, ← questions_append]
      rfl

/-- Names are looked up no further than to the first that is missed. -/
theorem run_lookUpAll_misses (hbefore : ∀ name ∈ before, env.Has name)
    (h : env.Misses name report) (after asked : List String) :
    (env.lookUpAll (before ++ name :: after)).run.run asked =
      (.error ⟨name, report⟩, asked ++ env.questions (before ++ [name])) := by
  rw [lookUpAll_append, run_bind, run_lookUpAll hbefore]
  simp only [lookUpAll, forget, bind_assoc]
  rw [run_bind, h.run_resolve, List.append_assoc, ← questions_append]

/-- The first name that is missed, if any is. -/
theorem exists_first_not_has (h : ¬ ∀ name ∈ names, env.Has name) :
    ∃ before name after, names = before ++ name :: after ∧
      (∀ n ∈ before, env.Has n) ∧ ¬ env.Has name := by
  induction names with
  | nil => exact absurd (fun _ hname => absurd hname List.not_mem_nil) h
  | cons name names ih =>
      by_cases hname : env.Has name
      · have hlater : ¬ ∀ n ∈ names, env.Has n := fun hnames =>
          h (List.forall_mem_cons.2 ⟨hname, hnames⟩)
        obtain ⟨before, n, after, rfl, hbefore, hn⟩ := ih hlater
        exact ⟨name :: before, n, after, rfl, List.forall_mem_cons.2 ⟨hname, hbefore⟩, hn⟩
      · exact ⟨[], name, names, rfl, fun _ hn => absurd hn List.not_mem_nil, hname⟩

/-- Looking up a name depends on nothing but what the table and the provider say of it. -/
theorem resolve_congr (htable : env'.table name = env.table name)
    (hprovider : env'.provider.map (· name) = env.provider.map (· name)) :
    env'.resolve name = env.resolve name := by
  unfold resolve
  rw [htable]
  cases h : env.provider with
  | none =>
      rw [h, Option.map_none, Option.map_eq_none_iff] at hprovider
      rw [hprovider]
  | some ask =>
      rw [h, Option.map_some, Option.map_eq_some_iff] at hprovider
      obtain ⟨ask', hask', heq⟩ := hprovider
      rw [hask']
      simp only [heq]

end Environment

namespace Pattern

variable {alphabet : Option Alphabet} {env : Environment} {p : Pattern}

/-- A pattern whose names are all found is compiled. -/
theorem outcome_compile_of_has (alphabet : Option Alphabet)
    (h : ∀ name ∈ p.references, env.Has name) :
    ∃ d, (p.compile alphabet env).outcome = (.ok d, env.questions p.references) := by
  have hlookups : (forget (p.compile alphabet env)).outcome =
      (.ok (), env.questions p.references) := by
    rw [forget_compile]
    exact Environment.run_lookUpAll h []
  exact exists_outcome_of_forget hlookups

/-- Compiling fails at the first reference that is missed. -/
theorem outcome_compile_of_misses (alphabet : Option Alphabet) {before after : List String}
    {name : String} {report : Option String} (hrefs : p.references = before ++ name :: after)
    (hbefore : ∀ n ∈ before, env.Has n) (h : env.Misses name report) :
    (p.compile alphabet env).outcome =
      (.error ⟨name, report⟩, env.questions (before ++ [name])) := by
  have hlookups : (forget (p.compile alphabet env)).outcome =
      (.error ⟨name, report⟩, env.questions (before ++ [name])) := by
    rw [forget_compile, hrefs]
    exact Environment.run_lookUpAll_misses hbefore h after []
  exact outcome_error_of_forget hlookups

theorem exists_compile_iff :
    (∃ d, (p.compile alphabet env).outcome.1 = .ok d) ↔
      ∀ name ∈ p.references, env.Has name := by
  constructor
  · intro hok
    by_contra h
    obtain ⟨before, name, after, hrefs, hbefore, hname⟩ := Environment.exists_first_not_has h
    obtain ⟨report, hmisses⟩ := Environment.not_has_iff.1 hname
    obtain ⟨d, hd⟩ := hok
    rw [outcome_compile_of_misses alphabet hrefs hbefore hmisses] at hd
    cases hd
  · intro h
    obtain ⟨d, hd⟩ := outcome_compile_of_has alphabet h
    exact ⟨d, congrArg Prod.fst hd⟩

theorem names_eq_nil_iff : p.names = [] ↔ p.references = [] := by
  simp [List.eq_nil_iff_forall_not_mem]

/-- Whatever a tree, a table and a provider are: the tree is compiled if and only if each
of its references is in the table or the provider has an automaton for it. If not, the
error names the first reference, from left to right, that is neither, and has what the
provider reported if it failed. The provider is asked, in order and once for each
occurrence, for the references that are not in the table, up to the failing one. So only
the names in the tree matter, and without an environment none may occur. -/
theorem compile_references (alphabet : Option Alphabet) (env : Environment) (p : Pattern) :
    ((∃ d, (p.compile alphabet env).outcome.1 = .ok d) ↔
      ∀ name ∈ p.references, env.Has name) ∧
    ((∀ name ∈ p.references, env.Has name) →
      (p.compile alphabet env).outcome.2 = env.questions p.references) ∧
    ((¬ ∀ name ∈ p.references, env.Has name) →
      ∃ before name after report, p.references = before ++ name :: after ∧
        (∀ n ∈ before, env.Has n) ∧ ¬ env.Has name ∧
        (p.compile alphabet env).outcome =
          (.error ⟨name, report⟩, env.questions (before ++ [name])) ∧
        ∀ r, report = some r ↔ ∃ ask, env.provider = some ask ∧ ask name = .error r) ∧
    (∀ env' : Environment, (∀ name ∈ p.names, env'.table name = env.table name ∧
        env'.provider.map (· name) = env.provider.map (· name)) →
      p.compile alphabet env' = p.compile alphabet env) ∧
    ((∃ d, (p.compile alphabet .empty).outcome.1 = .ok d) ↔ p.names = []) := by
  refine ⟨exists_compile_iff, fun h => ?_, fun h => ?_, fun env' hsame => ?_, ?_⟩
  · obtain ⟨d, hd⟩ := outcome_compile_of_has alphabet h
    rw [hd]
  · obtain ⟨before, name, after, hrefs, hbefore, hname⟩ := Environment.exists_first_not_has h
    obtain ⟨report, hmisses⟩ := Environment.not_has_iff.1 hname
    exact ⟨before, name, after, report, hrefs, hbefore, hname,
      outcome_compile_of_misses alphabet hrefs hbefore hmisses, fun _ =>
        hmisses.report_eq_some_iff⟩
  · refine compile_congr fun name hname => ?_
    obtain ⟨htable, hprovider⟩ := hsame name (mem_names.2 hname)
    exact Environment.resolve_congr htable hprovider
  · rw [exists_compile_iff, names_eq_nil_iff, List.eq_nil_iff_forall_not_mem]
    simp only [Environment.not_has_empty, imp_false]

/-- A body whose words are discarded is compiled all the same. -/
example :
    let p : Pattern := .union (.between 2 1 (.reference "digit"))
      (.inter (.reference "digit") (.concat (.complement (.reference "word")) (.reference "x")))
    let env : Environment := ⟨fun _ => none, some fun name =>
      if name = "digit" then .ok (some Dfa.empty) else .error "no such file"⟩
    (p.compile none env).outcome =
      (.error ⟨"word", some "no such file"⟩, ["digit", "digit", "word"]) := by
  decide +kernel

end Pattern

end PatternAutomata
