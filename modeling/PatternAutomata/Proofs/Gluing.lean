import PatternAutomata.Pattern.Language
import PatternAutomata.Proofs.Paths

/-!
# Paths through automata that are put together

A copy is attached to some states of an automaton by silent transitions to its start
(`attach`). Nothing leads back, so a path either stays in what was there before or goes
to one of these states, into the copy, and stays there (`path_attach`).

For copies side by side this gives the union, provided that nothing leads back to the
start (`Rooted`); for copies in a row it gives the concatenation. When the copy is left
for the start again, each return ends one word of the copied automaton, and the words
between returns make up a word of its star.

## Main results

* `Rooted.alternatives_spec`, `Bounded.chain_spec`, `accepts_loop`: the words of the automata
  that are put together.
-/

namespace PatternAutomata.Nfa

open scoped Computability

variable {a b : Nfa} {d : Dfa} {s t u : Nat} {c : Char} {w : List Char}
  {sources ends : List Nat}

/-! ## Attaching a copy -/

/-- All steps are between states that have been handed out, and so is the start. -/
structure Bounded (a : Nfa) : Prop where
  tidy : a.Tidy
  reads : ∀ s c t, a.Reads s c t → s ≤ a.last ∧ t ≤ a.last
  silent : ∀ s, ∀ t ∈ a.silentFrom s, s ≤ a.last ∧ t ≤ a.last
  start_le : a.start ≤ a.last

theorem bounded_empty : empty.Bounded where
  tidy := tidy_empty
  reads := fun _ _ _ h => absurd h not_reads_empty
  silent := fun s t h => by
    rw [silentFrom_empty] at h
    exact absurd h Std.ExtTreeSet.not_mem_empty
  start_le := Nat.le_refl 0

/-- A copy of the automaton, entered from some states. -/
def attach (a : Nfa) (d : Dfa) (sources : List Nat) : Nfa :=
  (a.embed d).2.connectAll sources (a.embed d).1.start

theorem reads_attach (h : a.Tidy) (hd : d.WellFormed) (sources : List Nat) (u : Nat)
    (c : Char) (v : Nat) : (a.attach d sources).Reads u c v ↔ a.Reads u c v ∨
      ∃ s t, d.step? s c = some t ∧ u = a.last + 1 + s ∧ v = a.last + 1 + t := by
  rw [attach, reads_of_fans_eq (fans_connectAll _ _ _), (embedded_embed h hd).reads]

theorem mem_silentFrom_attach (h : a.Tidy) (hd : d.WellFormed) (sources : List Nat)
    (u v : Nat) : v ∈ (a.attach d sources).silentFrom u ↔
      v ∈ a.silentFrom u ∨ (u ∈ sources ∧ v = a.last + 1 + d.start) := by
  rw [attach, mem_silentFrom_connectAll,
    silentFrom_of_silent_eq (embedded_embed h hd).silent]
  rfl

theorem last_attach (h : a.Tidy) (hd : d.WellFormed) (sources : List Nat) :
    (a.attach d sources).last = a.last + d.size := by
  rw [attach, (connectAll_frame _ _ _).1, (embedded_embed h hd).last]

theorem start_attach (h : a.Tidy) (hd : d.WellFormed) (sources : List Nat) :
    (a.attach d sources).start = a.start := by
  rw [attach, (connectAll_frame _ _ _).2.1, (embedded_embed h hd).start]

theorem isAccepting_attach (h : a.Tidy) (hd : d.WellFormed) (sources : List Nat) (s : Nat) :
    (a.attach d sources).isAccepting s = a.isAccepting s := by
  rw [isAccepting, attach, (connectAll_frame _ _ _).2.2, (embedded_embed h hd).accepting]
  rfl

theorem Bounded.attach (h : a.Bounded) (hd : d.WellFormed)
    (hsources : ∀ s ∈ sources, s ≤ a.last) : (a.attach d sources).Bounded := by
  have hlast := last_attach h.tidy hd sources
  refine
    { tidy := tidy_of_fans_eq (embedded_embed h.tidy hd).tidy (fans_connectAll _ _ _)
      reads := ?_
      silent := ?_
      start_le := ?_ }
  · intro s c t hreads
    rcases (reads_attach h.tidy hd sources s c t).1 hreads with hold | ⟨s', t', hstep, rfl, rfl⟩
    · have := h.reads s c t hold
      omega
    · have h1 := lt_size_of_step? hstep
      have h2 := hd.step?_lt hstep
      omega
  · intro s t ht
    rcases (mem_silentFrom_attach h.tidy hd sources s t).1 ht with hold | ⟨hs, rfl⟩
    · have := h.silent s t hold
      omega
    · have h1 := hsources s hs
      have h2 := hd.start_lt
      omega
  · rw [start_attach h.tidy hd, hlast]
    have := h.start_le
    omega

/-- A path that begins in the copy stays there and is a run of the automaton. -/
theorem exists_stepAll?_of_path (h : a.Bounded) (hd : d.WellFormed)
    (hsources : ∀ s ∈ sources, s ≤ a.last)
    (hpath : Path (a.attach d sources) (a.last + 1 + s) w u) :
    ∃ t, d.stepAll? s w = some t ∧ u = a.last + 1 + t := by
  refine (path_copy_iff ?_ ?_).1 hpath
  · intro s t hstep
    rcases (mem_silentFrom_attach h.tidy hd sources _ _).1 hstep with hold | ⟨hmem, -⟩
    · have := (h.silent _ _ hold).1
      omega
    · have := hsources _ hmem
      omega
  · intro s c v
    rw [reads_attach h.tidy hd]
    constructor
    · rintro (hold | ⟨s₁, t, hstep, h1, rfl⟩)
      · have := (h.reads _ _ _ hold).1
        omega
      · have hs₁ : s₁ = s := by omega
        subst hs₁
        exact ⟨t, hstep, rfl⟩
    · rintro ⟨t, hstep, rfl⟩
      exact Or.inr ⟨s, t, hstep, rfl, rfl⟩

/-- A path that begins outside the copy stays there or leads into the copy from one of
the states that it is attached to. -/
theorem path_attach (h : a.Bounded) (hd : d.WellFormed)
    (hsources : ∀ s ∈ sources, s ≤ a.last) (hs : s ≤ a.last) :
    Path (a.attach d sources) s w u ↔ Path a s w u ∨
      ∃ e ∈ sources, ∃ v v' t, w = v ++ v' ∧ Path a s v e ∧
        d.stepAll? d.start v' = some t ∧ u = a.last + 1 + t := by
  constructor
  · intro hpath
    induction hpath with
    | nil => exact Or.inl (.nil _)
    | silent hstep hpath ih =>
        rcases (mem_silentFrom_attach h.tidy hd sources _ _).1 hstep with hold | ⟨hmem, rfl⟩
        · rcases ih (h.silent _ _ hold).2 with hin | ⟨e, he, v, v', t, rfl, hv, hrun, hu⟩
          · exact Or.inl (.silent hold hin)
          · exact Or.inr ⟨e, he, v, v', t, rfl, .silent hold hv, hrun, hu⟩
        · obtain ⟨t, hrun, hu⟩ := exists_stepAll?_of_path h hd hsources hpath
          exact Or.inr ⟨_, hmem, [], _, t, rfl, .nil _, hrun, hu⟩
    | read hfan hfind ht _ ih =>
        have hreads := reads_iff.2 ⟨_, _, hfan, hfind, ht⟩
        rcases (reads_attach h.tidy hd sources _ _ _).1 hreads with hold | ⟨s₁, t₁, -, h1, -⟩
        · rcases ih (h.reads _ _ _ hold).2 with hin | ⟨e, he, v, v', t, rfl, hv, hrun, hu⟩
          · exact Or.inl (.of_reads hold hin)
          · exact Or.inr ⟨e, he, _ :: v, v', t, rfl, .of_reads hold hv, hrun, hu⟩
        · omega
  · have hmono : ∀ {s w u}, Path a s w u → Path (a.attach d sources) s w u := by
      intro s w u hpath
      refine hpath.mono ?_ ?_
      · exact fun s t ht => (mem_silentFrom_attach h.tidy hd sources s t).2 (Or.inl ht)
      · exact fun s c t ht => (reads_attach h.tidy hd sources s c t).2 (Or.inl ht)
    intro hpath
    rcases hpath with hin | ⟨e, he, v, v', t, rfl, hv, hrun, rfl⟩
    · exact hmono hin
    · refine path_append (hmono hv) (.silent (t := a.last + 1 + d.start) ?_ ?_)
      · exact (mem_silentFrom_attach h.tidy hd sources _ _).2 (Or.inr ⟨he, rfl⟩)
      · refine path_of_stepAll? (fun s c t hstep => ?_) hrun
        exact (reads_attach h.tidy hd sources _ _ _).2 (Or.inr ⟨s, t, hstep, rfl, rfl⟩)

theorem Bounded.path_le (h : a.Bounded) (hs : s ≤ a.last) (hpath : Path a s w u) :
    u ≤ a.last := by
  induction hpath with
  | nil => exact hs
  | silent hstep _ ih => exact ih (h.silent _ _ hstep).2
  | read hfan hfind ht _ ih =>
      exact ih (h.reads _ _ _ (reads_iff.2 ⟨_, _, hfan, hfind, ht⟩)).2

/-- Paths depend on the transitions only. -/
theorem path_congr (hfans : b.fans = a.fans) (hsilent : b.silent = a.silent) :
    Path b s w t ↔ Path a s w t := by
  constructor
  · intro h
    refine h.mono (fun s t ht => ?_) fun s c t ht => (reads_of_fans_eq hfans).1 ht
    rwa [silentFrom_of_silent_eq hsilent] at ht
  · intro h
    refine h.mono (fun s t ht => ?_) fun s c t ht => (reads_of_fans_eq hfans).2 ht
    rwa [silentFrom_of_silent_eq hsilent]

theorem Bounded.acceptAll (h : a.Bounded) (states : List Nat) :
    (a.acceptAll states).Bounded := by
  obtain ⟨hlast, hstart, hfans, hsilent⟩ := acceptAll_frame a states
  refine
    { tidy := tidy_of_fans_eq h.tidy hfans
      reads := ?_
      silent := ?_
      start_le := by rw [hlast, hstart]; exact h.start_le }
  · intro s c t hreads
    rw [hlast]
    exact h.reads s c t ((reads_of_fans_eq hfans).1 hreads)
  · intro s t ht
    rw [silentFrom_of_silent_eq hsilent] at ht
    rw [hlast]
    exact h.silent s t ht

/-! ## Copies side by side -/

/-- Nothing leads to the start, and accepting states have been handed out. -/
structure Rooted (a : Nfa) : Prop extends a.Bounded where
  not_reads : ∀ s c, ¬ a.Reads s c a.start
  not_silent : ∀ s, a.start ∉ a.silentFrom s
  accepting_le : ∀ s, a.isAccepting s = true → s ≤ a.last

theorem rooted_empty : empty.Rooted where
  toBounded := bounded_empty
  not_reads := fun _ _ => not_reads_empty
  not_silent := fun s => by
    rw [silentFrom_empty]
    exact Std.ExtTreeSet.not_mem_empty
  accepting_le := fun s h => by
    rw [isAccepting, Std.ExtTreeSet.contains_iff_mem] at h
    exact absurd h Std.ExtTreeSet.not_mem_empty

theorem Rooted.path_start (h : a.Rooted) (hpath : Path a s w a.start) :
    s = a.start ∧ w = [] := by
  generalize hu : a.start = u at hpath
  induction hpath with
  | nil => exact ⟨rfl, rfl⟩
  | silent hstep _ ih =>
      rw [(ih hu).1, ← hu] at hstep
      exact absurd hstep (h.not_silent _)
  | read hfan hfind ht _ ih =>
      have hreads := reads_iff.2 ⟨_, _, hfan, hfind, ht⟩
      rw [(ih hu).1, ← hu] at hreads
      exact absurd hreads (h.not_reads _ _)

/-- One step of `alternatives`. -/
def addAlternative (a : Nfa) (d : Dfa) : Nfa :=
  (a.attach d [a.start]).acceptAll (a.embed d).1.accepting

theorem alternatives_cons (a : Nfa) (d : Dfa) (ds : List Dfa) :
    a.alternatives (d :: ds) = (a.addAlternative d).alternatives ds := rfl

theorem isAccepting_addAlternative (h : a.Tidy) (hd : d.WellFormed) (s : Nat) :
    (a.addAlternative d).isAccepting s = true ↔
      a.isAccepting s = true ∨ ∃ t, d.isAccepting t = true ∧ s = a.last + 1 + t := by
  rw [addAlternative, isAccepting_acceptAll, isAccepting_attach h hd, mem_accepting_embed,
    or_comm]

theorem Rooted.addAlternative (h : a.Rooted) (hd : d.WellFormed) :
    (a.addAlternative d).Rooted := by
  have hsources : ∀ s ∈ [a.start], s ≤ a.last := by
    intro s hs
    rw [List.mem_singleton] at hs
    exact hs ▸ h.start_le
  obtain ⟨hlast, hstart, hfans, hsilent⟩ :=
    acceptAll_frame (a.attach d [a.start]) (a.embed d).1.accepting
  have hstart' := hstart.trans (start_attach h.tidy hd [a.start])
  have hle := h.start_le
  refine
    { toBounded := (h.toBounded.attach hd hsources).acceptAll _
      not_reads := ?_
      not_silent := ?_
      accepting_le := ?_ }
  · intro s c hreads
    rw [Nfa.addAlternative, hstart', reads_of_fans_eq hfans,
      reads_attach h.tidy hd] at hreads
    rcases hreads with hold | ⟨s', t', -, -, hv⟩
    · exact h.not_reads s c hold
    · omega
  · intro s ht
    rw [Nfa.addAlternative, hstart', silentFrom_of_silent_eq hsilent,
      mem_silentFrom_attach h.tidy hd] at ht
    rcases ht with hold | ⟨-, hv⟩
    · exact h.not_silent s hold
    · omega
  · intro s hs
    rw [isAccepting_addAlternative h.tidy hd] at hs
    rw [Nfa.addAlternative, hlast, last_attach h.tidy hd]
    rcases hs with hold | ⟨t, ht, rfl⟩
    · have := h.accepting_le s hold
      omega
    · have := Dfa.lt_size_of_isAccepting ht
      omega

/-- A copy at the start adds the words of the automaton. -/
theorem Rooted.accepts_addAlternative (h : a.Rooted) (hd : d.WellFormed) (w : List Char) :
    (a.addAlternative d).Accepts w ↔ a.Accepts w ∨ d.accepts w = true := by
  have hsources : ∀ s ∈ [a.start], s ≤ a.last := by
    intro s hs
    rw [List.mem_singleton] at hs
    exact hs ▸ h.start_le
  obtain ⟨-, hstart, hfans, hsilent⟩ :=
    acceptAll_frame (a.attach d [a.start]) (a.embed d).1.accepting
  have hpath : ∀ u, Path (a.addAlternative d) (a.addAlternative d).start w u ↔
      Path a a.start w u ∨ ∃ t, d.stepAll? d.start w = some t ∧ u = a.last + 1 + t := by
    intro u
    rw [Nfa.addAlternative, path_congr hfans hsilent, hstart, start_attach h.tidy hd,
      path_attach h.toBounded hd hsources h.start_le]
    apply or_congr_right
    constructor
    · intro hu
      obtain ⟨e, he, v, v', t, rfl, hv, hrun, hu⟩ := hu
      rw [List.mem_singleton] at he
      subst he
      obtain ⟨-, rfl⟩ := h.path_start hv
      exact ⟨t, hrun, hu⟩
    · intro hu
      obtain ⟨t, hrun, hu⟩ := hu
      exact ⟨a.start, by simp, [], w, t, rfl, .nil _, hrun, hu⟩
  constructor
  · intro hw
    obtain ⟨u, haccept, hu⟩ := hw
    rw [isAccepting_addAlternative h.tidy hd] at haccept
    rcases (hpath u).1 hu with hold | ⟨t, hrun, rfl⟩
    · rcases haccept with haccept | ⟨t, -, rfl⟩
      · exact Or.inl ⟨u, haccept, hold⟩
      · have := h.path_le h.start_le hold
        omega
    · rcases haccept with haccept | ⟨t', haccept, heq⟩
      · have := h.accepting_le _ haccept
        omega
      · have ht : t = t' := by omega
        subst ht
        exact Or.inr (Dfa.acceptsFrom_iff.2 ⟨t, hrun, haccept⟩)
  · intro hw
    rcases hw with ⟨u, haccept, hu⟩ | hw
    · exact ⟨u, (isAccepting_addAlternative h.tidy hd u).2 (Or.inl haccept),
        (hpath u).2 (Or.inl hu)⟩
    · obtain ⟨t, hrun, haccept⟩ := Dfa.acceptsFrom_iff.1 hw
      exact ⟨_, (isAccepting_addAlternative h.tidy hd _).2 (Or.inr ⟨t, haccept, rfl⟩),
        (hpath _).2 (Or.inr ⟨t, hrun, rfl⟩)⟩

/-- Copies side by side accept the words of each of the automata. -/
theorem Rooted.alternatives_spec (h : a.Rooted) {ds : List Dfa}
    (hds : ∀ d ∈ ds, d.WellFormed) :
    (a.alternatives ds).Tidy ∧
    ∀ w, (a.alternatives ds).Accepts w ↔ a.Accepts w ∨ ∃ d ∈ ds, d.accepts w = true := by
  induction ds generalizing a with
  | nil => exact ⟨h.tidy, by simp [alternatives]⟩
  | cons d ds ih =>
      have hd := hds d (by simp)
      obtain ⟨htidy, haccepts⟩ := ih (h.addAlternative hd)
        fun e he => hds e (List.mem_cons_of_mem d he)
      rw [alternatives_cons]
      refine ⟨htidy, fun w => ?_⟩
      rw [haccepts, h.accepts_addAlternative hd]
      simp only [List.mem_cons, exists_eq_or_imp]
      exact or_assoc

theorem not_accepts_empty : ¬ empty.Accepts w := by
  intro h
  obtain ⟨s, haccept, -⟩ := h
  rw [isAccepting, Std.ExtTreeSet.contains_iff_mem] at haccept
  exact absurd haccept Std.ExtTreeSet.not_mem_empty

/-! ## Copies in a row -/

/-- The words that lead from the start to one of the states. -/
def leading (a : Nfa) (ends : List Nat) : Language Char := {w | ∃ e ∈ ends, Path a a.start w e}

theorem chain_cons (a : Nfa) (ends : List Nat) (d : Dfa) (ds : List Dfa) :
    a.chain ends (d :: ds) =
      (a.attach d ends).chain (a.embed d).1.accepting ds := rfl

/-- A copy at the ends has the words that lead to its own ends. -/
theorem Bounded.leading_attach (h : a.Bounded) (hd : d.WellFormed)
    (hends : ∀ e ∈ ends, e ≤ a.last) :
    (a.attach d ends).leading (a.embed d).1.accepting = a.leading ends * d.language := by
  ext w
  rw [Language.mem_mul]
  constructor
  · intro hw
    obtain ⟨u, hu, hpath⟩ := hw
    obtain ⟨t, haccept, rfl⟩ := mem_accepting_embed.1 hu
    rw [start_attach h.tidy hd, path_attach h hd hends h.start_le] at hpath
    rcases hpath with hold | ⟨e, he, v, v', t', rfl, hv, hrun, heq⟩
    · have := h.path_le h.start_le hold
      omega
    · have ht : t = t' := by omega
      subst ht
      exact ⟨v, ⟨e, he, hv⟩, v', Dfa.acceptsFrom_iff.2 ⟨t, hrun, haccept⟩, rfl⟩
  · intro hw
    obtain ⟨v, ⟨e, he, hv⟩, v', hv', rfl⟩ := hw
    obtain ⟨t, hrun, haccept⟩ := Dfa.acceptsFrom_iff.1 hv'
    refine ⟨_, mem_accepting_embed.2 ⟨t, haccept, rfl⟩, ?_⟩
    rw [start_attach h.tidy hd, path_attach h hd hends h.start_le]
    exact Or.inr ⟨e, he, v, v', t, rfl, hv, hrun, rfl⟩

/-- Copies in a row accept what leads to the ends, followed by one word of each. -/
theorem Bounded.chain_spec (h : a.Bounded) (hnone : ∀ s, a.isAccepting s = false)
    (hends : ∀ e ∈ ends, e ≤ a.last) {ds : List Dfa} (hds : ∀ d ∈ ds, d.WellFormed) :
    (a.chain ends ds).Tidy ∧
    ∀ w, (a.chain ends ds).Accepts w ↔ w ∈ a.leading ends * (ds.map Dfa.language).prod := by
  induction ds generalizing a ends with
  | nil =>
      obtain ⟨-, hstart, hfans, hsilent⟩ := acceptAll_frame a ends
      refine ⟨tidy_of_fans_eq h.tidy hfans, fun w => ?_⟩
      rw [List.map_nil, List.prod_nil, mul_one, chain]
      constructor
      · intro hw
        obtain ⟨u, haccept, hpath⟩ := hw
        rw [path_congr hfans hsilent, hstart] at hpath
        rw [isAccepting_acceptAll, hnone] at haccept
        rcases haccept with hu | hu
        · exact ⟨u, hu, hpath⟩
        · cases hu
      · intro hw
        obtain ⟨u, hu, hpath⟩ := hw
        refine ⟨u, (isAccepting_acceptAll a ends u).2 (Or.inl hu), ?_⟩
        rwa [path_congr hfans hsilent, hstart]
  | cons d ds ih =>
      have hd := hds d (by simp)
      have hends' : ∀ e ∈ (a.embed d).1.accepting, e ≤ (a.attach d ends).last := by
        intro e he
        obtain ⟨t, ht, rfl⟩ := mem_accepting_embed.1 he
        have := Dfa.lt_size_of_isAccepting ht
        rw [last_attach h.tidy hd]
        omega
      have hnone' : ∀ s, (a.attach d ends).isAccepting s = false := by
        intro s
        rw [isAccepting_attach h.tidy hd, hnone]
      have hrest := ih (h.attach hd hends) hnone' hends'
        fun e he => hds e (List.mem_cons_of_mem d he)
      rw [h.leading_attach hd hends, mul_assoc] at hrest
      rw [chain_cons, List.map_cons, List.prod_cons]
      exact hrest

theorem leading_empty : empty.leading [empty.start] = 1 := by
  ext w
  rw [Language.mem_one]
  constructor
  · intro hw
    obtain ⟨e, he, hpath⟩ := hw
    rw [List.mem_singleton] at he
    subst he
    exact (rooted_empty.path_start hpath).2
  · intro hw
    subst hw
    exact ⟨empty.start, by simp, .nil _⟩

/-! ## Around the start -/

/-- The copy before it is left again. -/
def entrance (d : Dfa) : Nfa := (empty.addAccepting empty.start).attach d [empty.start]

theorem loop_eq (d : Dfa) : loop d = (entrance d).connectAll
    ((empty.addAccepting empty.start).embed d).1.accepting empty.start := rfl

theorem tidy_loop (hd : d.WellFormed) : (loop d).Tidy := by
  have hembed := embedded_embed (a := empty.addAccepting empty.start) tidy_empty hd
  have hentrance : (entrance d).Tidy := tidy_of_fans_eq hembed.tidy (fans_connectAll _ _ _)
  rw [loop_eq]
  exact tidy_of_fans_eq hentrance (fans_connectAll _ _ _)

theorem reads_loop (hd : d.WellFormed) : (loop d).Reads s c t ↔
    ∃ s' t', d.step? s' c = some t' ∧ s = 1 + s' ∧ t = 1 + t' := by
  rw [loop_eq, reads_of_fans_eq (fans_connectAll _ _ _), entrance,
    reads_attach (a := empty.addAccepting empty.start) tidy_empty hd]
  constructor
  · intro h
    rcases h with hold | hnew
    · exact absurd ((reads_of_fans_eq rfl).1 hold) not_reads_empty
    · exact hnew
  · exact Or.inr

theorem mem_silentFrom_loop (hd : d.WellFormed) : t ∈ (loop d).silentFrom s ↔
    (s = 0 ∧ t = 1 + d.start) ∨ ∃ s', d.isAccepting s' = true ∧ s = 1 + s' ∧ t = 0 := by
  have hnone : (empty.addAccepting empty.start).silentFrom s = ∅ := silentFrom_empty s
  rw [loop_eq, mem_silentFrom_connectAll, entrance,
    mem_silentFrom_attach (a := empty.addAccepting empty.start) tidy_empty hd,
    mem_accepting_embed, hnone]
  simp only [Std.ExtTreeSet.not_mem_empty, false_or, List.mem_singleton]
  apply or_congr
  · exact Iff.rfl
  · constructor
    · intro h
      obtain ⟨⟨s', hs', heq⟩, ht⟩ := h
      exact ⟨s', hs', heq, ht⟩
    · intro h
      obtain ⟨s', hs', heq, ht⟩ := h
      exact ⟨⟨s', hs', heq⟩, ht⟩

theorem start_loop (hd : d.WellFormed) : (loop d).start = 0 := by
  rw [loop_eq, (connectAll_frame _ _ _).2.1, entrance,
    start_attach (a := empty.addAccepting empty.start) tidy_empty hd]
  rfl

theorem isAccepting_loop (hd : d.WellFormed) : (loop d).isAccepting s = true ↔ s = 0 := by
  rw [loop_eq, isAccepting, (connectAll_frame _ _ _).2.2, ← isAccepting, entrance,
    isAccepting_attach (a := empty.addAccepting empty.start) tidy_empty hd,
    isAccepting_addAccepting]
  constructor
  · intro h
    rcases h with h | h
    · exact h
    · rw [isAccepting, Std.ExtTreeSet.contains_iff_mem] at h
      exact absurd h Std.ExtTreeSet.not_mem_empty
  · exact Or.inl

theorem append_mem_kstar {l : Language Char} {v w : List Char} (hv : v ∈ l) (hw : w ∈ l∗) :
    v ++ w ∈ l∗ := by
  obtain ⟨parts, rfl, hparts⟩ := Language.mem_kstar.1 hw
  refine Language.mem_kstar.2 ⟨v :: parts, rfl, ?_⟩
  intro y hy
  rcases List.mem_cons.1 hy with rfl | hy
  · exact hv
  · exact hparts y hy

/-- A path back to the start reads words of the automaton, the first of them from the
state of the copy that the path begins in. -/
theorem mem_kstar_of_path (hd : d.WellFormed) (h : Path (loop d) s w u) (hu : u = 0) :
    (s = 0 → w ∈ d.language∗) ∧
    ∀ s', s = 1 + s' → ∃ v v', w = v ++ v' ∧ d.acceptsFrom s' v = true ∧ v' ∈ d.language∗ := by
  induction h with
  | nil s =>
      refine ⟨fun _ => Language.nil_mem_kstar _, fun s' hs' => ?_⟩
      omega
  | silent hstep _ ih =>
      obtain ⟨ih0, ih1⟩ := ih hu
      rcases (mem_silentFrom_loop hd).1 hstep with ⟨rfl, rfl⟩ | ⟨s', haccept, rfl, rfl⟩
      · refine ⟨fun _ => ?_, fun s' hs' => by omega⟩
        obtain ⟨v, v', rfl, hv, hv'⟩ := ih1 d.start rfl
        exact append_mem_kstar hv hv'
      · refine ⟨fun hs => by omega, fun s'' hs'' => ?_⟩
        have hs : s' = s'' := by omega
        subst hs
        exact ⟨[], _, rfl, haccept, ih0 rfl⟩
  | read hfan hfind ht _ ih =>
      obtain ⟨-, ih1⟩ := ih hu
      have hreads := reads_iff.2 ⟨_, _, hfan, hfind, ht⟩
      obtain ⟨s₁, t₁, hstep, rfl, rfl⟩ := (reads_loop hd).1 hreads
      refine ⟨fun hs => by omega, fun s' hs' => ?_⟩
      have hs : s₁ = s' := by omega
      subst hs
      obtain ⟨v, v', rfl, hv, hv'⟩ := ih1 t₁ rfl
      exact ⟨_ :: v, v', rfl, Dfa.acceptsFrom_cons_iff.2 ⟨t₁, hstep, hv⟩, hv'⟩

/-- The copy around the start accepts the words of the star. -/
theorem accepts_loop (hd : d.WellFormed) (w : List Char) :
    (loop d).Accepts w ↔ w ∈ d.language∗ := by
  constructor
  · intro hw
    obtain ⟨u, haccept, hpath⟩ := hw
    rw [start_loop hd] at hpath
    exact (mem_kstar_of_path hd hpath ((isAccepting_loop hd).1 haccept)).1 rfl
  · intro hw
    obtain ⟨parts, rfl, hparts⟩ := Language.mem_kstar.1 hw
    refine ⟨0, (isAccepting_loop hd).2 rfl, ?_⟩
    rw [start_loop hd]
    clear hw
    induction parts with
    | nil => exact .nil 0
    | cons v parts ih =>
        obtain ⟨t, hrun, haccept⟩ := Dfa.acceptsFrom_iff.1 (hparts v (by simp))
        rw [List.flatten_cons]
        refine .silent ((mem_silentFrom_loop hd).2 (Or.inl ⟨rfl, rfl⟩)) ?_
        refine path_append (t := 1 + t) (path_of_stepAll? ?_ hrun) ?_
        · exact fun s c t hstep => (reads_loop hd).2 ⟨s, t, hstep, rfl, rfl⟩
        · exact .silent ((mem_silentFrom_loop hd).2 (Or.inr ⟨t, haccept, rfl, rfl⟩))
            (ih fun y hy => hparts y (List.mem_cons_of_mem v hy))

end PatternAutomata.Nfa
