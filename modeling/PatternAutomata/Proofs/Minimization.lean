import PatternAutomata.Dfa.Basic
import PatternAutomata.Pattern.Language
import PatternAutomata.Proofs.Refinement

/-!
# The minimal automaton

An automaton is minimal in the sense of this module (`Minimal`) if its rows are
joined, all states are useful, no two states accept the same words, and states are
numbered as a breadth-first exploration meets them. Such an automaton is determined
by its words: a state of another minimal automaton corresponds to each state, and
the correspondence is compatible with rows, hence with the order of exploration,
hence is the identity on numbers.

Minimization gives a minimal automaton for each automaton that accepts some word. For
all others it gives the automaton `empty`, which is as small as an automaton can be
but has a state that is not useful.

## Main results

* `Trim.minimal_quotient`: the classes of the last partition make a minimal automaton.
* `Minimal.eq_of_accepts_eq`: minimal automata for the same words are equal.
* `minimized_spec`: minimization keeps the words, saves as many states as possible, and
  tells languages apart.
-/

namespace PatternAutomata.Dfa

open Exploration

variable {d e : Dfa} {p : Partition} {s t : Nat}

/-- The automaton is canonical and trim, different states accept different words, and
states are numbered breadth first. -/
structure Minimal (d : Dfa) : Prop extends d.Canonical, d.Trim where
  separated : ∀ s < d.size, ∀ t < d.size, d.SameWords s t → s = t
  numbered : explore .queue d.successors d.size [d.start] = List.range d.size

/-! ## The machine of classes -/

/-- The first state of a class belongs to it. -/
theorem Coarse.first_spec (hp : d.Coarse p) (hs : s < d.size) :
    p.idxOf (p.classOf s) < d.size ∧ p.classOf (p.idxOf (p.classOf s)) = p.classOf s := by
  have hmem : p.classOf s ∈ p := classOf_mem (hp.length_eq ▸ hs)
  have hlt := List.idxOf_lt_length_of_mem hmem
  refine ⟨hp.length_eq ▸ hlt, ?_⟩
  rw [classOf_eq_getElem hlt, List.getElem_idxOf]

theorem edges_quotient (d : Dfa) (p : Partition) (k : Nat) :
    (d.quotient p).edges k = (d.signature p (p.idxOf k)).entries := rfl

theorem Congruence.step?_quotient (hp : d.Congruence p) (h : d.WellFormed) (hs : s < d.size)
    (c : Char) : (d.quotient p).step? (p.classOf s) c = (d.step? s c).map p.classOf := by
  obtain ⟨hlt, hclass⟩ := hp.first_spec hs
  rw [Machine.step?_eq_valueAt?, edges_quotient, ← Row.step?_eq_valueAt?, h.step?_signature]
  exact hp.steps _ hlt s hs hclass c

theorem Congruence.accepting_quotient (hp : d.Congruence p) (hs : s < d.size) :
    (d.quotient p).accepting (p.classOf s) = d.isAccepting s := by
  obtain ⟨hlt, hclass⟩ := hp.first_spec hs
  exact hp.accepting _ hlt s hs hclass

/-- The class of a state accepts the words of the state. -/
theorem Congruence.acceptsFrom_quotient (hp : d.Congruence p) (h : d.WellFormed)
    (hs : s < d.size) (w : List Char) :
    (d.quotient p).acceptsFrom (p.classOf s) w = d.acceptsFrom s w := by
  induction w generalizing s with
  | nil => exact hp.accepting_quotient hs
  | cons c w ih =>
      rw [Machine.acceptsFrom_cons, acceptsFrom_cons, hp.step?_quotient h hs]
      cases hstep : d.step? s c with
      | none => rfl
      | some t => exact ih (h.step?_lt hstep)

theorem Congruence.stepAll?_quotient (hp : d.Congruence p) (h : d.WellFormed)
    (hs : s < d.size) (w : List Char) :
    (d.quotient p).stepAll? (p.classOf s) w = (d.stepAll? s w).map p.classOf := by
  induction w generalizing s with
  | nil => rfl
  | cons c w ih =>
      rw [Machine.stepAll?_cons, stepAll?_cons, hp.step?_quotient h hs]
      cases hstep : d.step? s c with
      | none => rfl
      | some t => exact ih (h.step?_lt hstep)

theorem Coarse.exists_of_mem (hp : d.Coarse p) {k : Nat} (hk : k ∈ p) :
    ∃ s < d.size, p.classOf s = k := by
  obtain ⟨s, hs, rfl⟩ := List.mem_iff_getElem.1 hk
  exact ⟨s, hp.length_eq ▸ hs, classOf_eq_getElem hs⟩

theorem Coarse.confined_quotient (hp : d.Coarse p) (h : d.WellFormed) :
    (d.quotient p).Confined p.count (distinct p) where
  start_mem := mem_distinct.2 (classOf_mem (hp.length_eq ▸ h.start_lt))
  closed := fun k _ l hl => by
    obtain ⟨e, he, rfl⟩ := List.mem_map.1 hl
    obtain ⟨u, hu, rfl⟩ := List.mem_map.1 he
    obtain ⟨v, hv, htarget⟩ := Row.target_mem_coalesce hu
    obtain ⟨w, hw, rfl⟩ := List.mem_map.1 hv
    have hlt : w.target < p.length := hp.length_eq ▸ h.target_lt_row hw
    exact mem_distinct.2 (htarget ▸ classOf_mem hlt)
  ascending := fun k _ => by
    rw [edges_quotient, Row.keys_entries]
    exact (h.joined_signature p _).ordered
  length_le := Nat.le_refl _

/-! ## The automaton of the classes is minimal -/

section Quotient

variable (d p)

/-- The classes that the class of the start leads to, in order of discovery. -/
def classes : List Nat :=
  explore .queue (d.quotient p).successors p.count [(d.quotient p).start]

theorem toDfa_quotient :
    (d.quotient p).toDfa .queue p.count = (d.quotient p).tabulate (d.classes p) := rfl

variable {d p}

theorem Coarse.closed_classes (hp : d.Coarse p) (h : d.WellFormed) :
    (d.quotient p).Closed (d.classes p) :=
  (hp.confined_quotient h).closed_explore .queue

theorem Coarse.exists_of_mem_classes (hp : d.Coarse p) (h : d.WellFormed) {k : Nat}
    (hk : k ∈ d.classes p) : ∃ s < d.size, p.classOf s = k := by
  have hreach := (hp.confined_quotient h).enough.mem_explore_iff.1 hk
  exact hp.exists_of_mem (mem_distinct.1 ((hp.confined_quotient h).mem_of_reaches hreach))

/-- Each state of the tabulated machine is the number of the class of a state. -/
theorem Coarse.exists_state (hp : d.Coarse p) (h : d.WellFormed) {i : Nat}
    (hi : i < (d.classes p).length) :
    ∃ s < d.size, p.classOf s ∈ d.classes p ∧ (d.classes p).idxOf (p.classOf s) = i := by
  obtain ⟨s, hs, hclass⟩ := hp.exists_of_mem_classes h (List.getElem_mem hi)
  refine ⟨s, hs, hclass ▸ List.getElem_mem hi, ?_⟩
  rw [hclass]
  exact (nodup_explore _ _ _ _).idxOf_getElem i hi

/-- As signatures are joined, numbering the classes joins nothing further. -/
theorem Coarse.row_tabulate_quotient (hp : d.Coarse p) (h : d.WellFormed) {k : Nat}
    (hk : k ∈ d.classes p) :
    ((d.quotient p).tabulate (d.classes p)).row ((d.classes p).idxOf k) =
      (d.signature p (p.idxOf k)).relabel (d.classes p).idxOf := by
  have htarget : ∀ u ∈ d.signature p (p.idxOf k), u.target ∈ d.classes p := by
    intro u hu
    apply (hp.closed_classes h).closed k hk
    exact List.mem_map.2 ⟨(u.on, u.target), List.mem_map.2 ⟨u, hu, rfl⟩, rfl⟩
  have hrow : (d.quotient p).numbered (d.classes p) k =
      (d.signature p (p.idxOf k)).relabel (d.classes p).idxOf := by
    rw [Machine.numbered, edges_quotient, Row.entries, List.map_map]
    rfl
  rw [Machine.row_tabulate hk, Machine.row, ← Machine.numbered, hrow]
  apply Row.coalesce_of_joined
  apply Row.joined_relabel (h.joined_signature p _)
  intro t ht u hu heq
  exact (List.idxOf_inj (htarget t ht)).1 heq

theorem Coarse.successors_tabulate_quotient (hp : d.Coarse p) (h : d.WellFormed) {k : Nat}
    (hk : k ∈ d.classes p) :
    ((d.quotient p).tabulate (d.classes p)).successors ((d.classes p).idxOf k) =
      ((d.quotient p).successors k).map (d.classes p).idxOf := by
  rw [successors, hp.row_tabulate_quotient h hk, Row.relabel, Machine.successors,
    edges_quotient, Row.entries, List.map_map, List.map_map, List.map_map]
  rfl

/-- The numbers of the classes are those of an exploration of the automaton itself. -/
theorem Coarse.numbered_quotient (hp : d.Coarse p) (h : d.WellFormed) :
    explore .queue ((d.quotient p).tabulate (d.classes p)).successors
        ((d.quotient p).tabulate (d.classes p)).size
        [((d.quotient p).tabulate (d.classes p)).start] =
      List.range ((d.quotient p).tabulate (d.classes p)).size := by
  have hconfined := hp.confined_quotient h
  have hmem : ∀ {k : Nat}, Reaches (d.quotient p).successors [(d.quotient p).start] k →
      k ∈ d.classes p := fun hk => hconfined.enough.mem_explore_iff.2 hk
  have hwf := (hp.closed_classes h).canonical_tabulate.toWellFormed
  have hmap := explore_map (d := .queue) (f := (d.classes p).idxOf) hconfined.enough
    hwf.enough_successors (fun k l hk _ heq => (List.idxOf_inj (hmem hk)).1 heq)
    (fun k hk => hp.successors_tabulate_quotient h (hmem hk))
  rw [Machine.size_tabulate]
  refine (Machine.size_tabulate (d.quotient p) (d.classes p) ▸ hmap).trans ?_
  refine List.ext_getElem (by simp [classes]) fun i hi hi' => ?_
  rw [List.getElem_map, List.getElem_range]
  exact (nodup_explore _ _ _ _).idxOf_getElem i _

end Quotient

/-- The classes of the last partition make a minimal automaton for the same words. -/
theorem Trim.minimal_quotient (h : d.Trim) :
    ((d.quotient d.partition).toDfa .queue d.partition.count).Minimal := by
  have hp := h.congruence_partition
  have hwf := h.toWellFormed
  have hclosed := hp.closed_classes hwf
  rw [toDfa_quotient]
  have hwords : ∀ {s : Nat}, s < d.size → d.partition.classOf s ∈ d.classes d.partition →
      ∀ w, ((d.quotient d.partition).tabulate (d.classes d.partition)).acceptsFrom
        ((d.classes d.partition).idxOf (d.partition.classOf s)) w = d.acceptsFrom s w := by
    intro s hs hmem w
    rw [hclosed.acceptsFrom_tabulate hmem, hp.acceptsFrom_quotient hwf hs]
  refine
    { hclosed.canonical_tabulate with
      reached := ?_
      productive := ?_
      separated := ?_
      numbered := hp.numbered_quotient hwf }
  · intro i hi
    rw [Machine.size_tabulate] at hi
    obtain ⟨s, hs, hmem, rfl⟩ := hp.exists_state hwf hi
    obtain ⟨u, hu⟩ := h.reached s hs
    refine ⟨u, ?_⟩
    have hstart : (d.quotient d.partition).stepAll? (d.quotient d.partition).start u =
        some (d.partition.classOf s) := by
      rw [show (d.quotient d.partition).start = d.partition.classOf d.start from rfl,
        hp.stepAll?_quotient hwf h.start_lt, hu]
      rfl
    exact (hclosed.stepAll?_tabulate hclosed.start_mem u).trans (by rw [hstart]; rfl)
  · intro i hi
    rw [Machine.size_tabulate] at hi
    obtain ⟨s, hs, hmem, rfl⟩ := hp.exists_state hwf hi
    obtain ⟨v, hv⟩ := h.productive s hs
    exact ⟨v, by rw [hwords hs hmem, hv]⟩
  · intro i hi j hj hsame
    rw [Machine.size_tabulate] at hi hj
    obtain ⟨s, hs, hs', rfl⟩ := hp.exists_state hwf hi
    obtain ⟨t, ht, ht', rfl⟩ := hp.exists_state hwf hj
    rw [hp.sameWords s hs t ht]
    intro w
    rw [← hwords hs hs', ← hwords ht ht']
    exact hsame w

theorem Trim.accepts_quotient (h : d.Trim) (w : List Char) :
    ((d.quotient d.partition).toDfa .queue d.partition.count).accepts w = d.accepts w := by
  have hp := h.congruence_partition
  rw [(hp.confined_quotient h.toWellFormed).accepts_toDfa]
  exact hp.acceptsFrom_quotient h.toWellFormed h.start_lt w

/-! ## Minimal automata for the same words -/

/-- Two automata accept the same words. -/
def SameLanguage (d e : Dfa) : Prop := ∀ w, d.accepts w = e.accepts w

/-- Each state of the first automaton has a state of the second that accepts the same
words. -/
structure Matches (d e : Dfa) (σ : Nat → Nat) : Prop where
  lt : ∀ s < d.size, σ s < e.size
  words : ∀ s < d.size, ∀ w, e.acceptsFrom (σ s) w = d.acceptsFrom s w

/-- The state for a state is the one that some word leads to in both automata. -/
theorem Trim.exists_matches (h : d.Trim) (he : e.WellFormed) (hsame : SameLanguage d e) :
    ∃ σ, Matches d e σ := by
  have hstate : ∀ s, ∃ t, s < d.size →
      t < e.size ∧ ∀ w, e.acceptsFrom t w = d.acceptsFrom s w := by
    intro s
    by_cases hs : s < d.size
    · obtain ⟨u, hu⟩ := h.reached s hs
      obtain ⟨v, hv⟩ := h.productive s hs
      have huv : e.acceptsFrom e.start (u ++ v) = true := by
        rw [← accepts, ← hsame, accepts, acceptsFrom_append hu, hv]
      obtain ⟨t, ht, -⟩ := exists_stepAll?_of_acceptsFrom huv
      refine ⟨t, fun _ => ⟨he.stepAll?_lt he.start_lt ht, ?_⟩⟩
      intro w
      rw [← acceptsFrom_append ht, ← accepts, ← hsame, accepts, acceptsFrom_append hu]
    · exact ⟨0, fun hs' => absurd hs' hs⟩
  choose σ hσ using hstate
  exact ⟨σ, fun s hs => (hσ s hs).1, fun s hs => (hσ s hs).2⟩

variable {σ : Nat → Nat}

theorem Matches.injective (hσ : Matches d e σ) (h : d.Minimal) (hs : s < d.size)
    (ht : t < d.size) (heq : σ s = σ t) : s = t := by
  apply h.separated s hs t ht
  intro w
  rw [← hσ.words s hs, ← hσ.words t ht, heq]

/-- No automaton for the same words is smaller than a minimal one. -/
theorem Minimal.size_le (h : d.Minimal) (he : e.WellFormed) (hsame : SameLanguage d e) :
    d.size ≤ e.size := by
  obtain ⟨σ, hσ⟩ := h.toTrim.exists_matches he hsame
  have hcard := Finset.card_le_card_of_injOn (s := Finset.range d.size)
    (t := Finset.range e.size) σ
    (fun s hs => Finset.mem_coe.2 (Finset.mem_range.2 (hσ.lt s (Finset.mem_range.1 hs))))
    (fun s hs t ht heq => hσ.injective h (Finset.mem_range.1 hs) (Finset.mem_range.1 ht) heq)
  rwa [Finset.card_range, Finset.card_range] at hcard

theorem Matches.step? (hσ : Matches d e σ) (h : d.Minimal) (he : e.Minimal) (hs : s < d.size)
    (c : Char) : e.step? (σ s) c = (d.step? s c).map σ := by
  cases hd : d.step? s c with
  | none =>
      -- A step of the other automaton would lead to a productive state.
      cases he' : e.step? (σ s) c with
      | none => rfl
      | some t =>
          obtain ⟨v, hv⟩ := he.productive t (he.toCanonical.step?_lt he')
          have hw := hσ.words s hs (c :: v)
          rw [acceptsFrom_cons, acceptsFrom_cons, hd, he', Option.any_some, hv] at hw
          cases hw
  | some s' =>
      have hs' := h.toCanonical.step?_lt hd
      obtain ⟨v, hv⟩ := h.productive s' hs'
      have hw : e.acceptsFrom (σ s) (c :: v) = true := by
        rw [hσ.words s hs]
        exact acceptsFrom_cons_iff.2 ⟨s', hd, hv⟩
      obtain ⟨t, ht, -⟩ := acceptsFrom_cons_iff.1 hw
      rw [ht, Option.map_some, Option.some_inj]
      apply he.separated t (he.toCanonical.step?_lt ht) (σ s') (hσ.lt s' hs')
      intro w
      have hw := hσ.words s hs (c :: w)
      rw [acceptsFrom_cons, acceptsFrom_cons, hd, ht] at hw
      exact hw.trans (hσ.words s' hs' w).symm

/-- Joined rows with corresponding steps have corresponding transitions, one by one. -/
theorem Matches.row (hσ : Matches d e σ) (h : d.Minimal) (he : e.Minimal) (hs : s < d.size) :
    e.row (σ s) = (d.row s).relabel σ := by
  apply (he.toCanonical.joined_row _).eq_of_step?_eq
  · apply Row.joined_relabel (h.toCanonical.joined_row s)
    intro t ht u hu heq
    exact hσ.injective h (h.toCanonical.target_lt_row ht) (h.toCanonical.target_lt_row hu) heq
  · intro c
    rw [Row.step?_relabel]
    exact hσ.step? h he hs c

theorem Matches.start (hσ : Matches d e σ) (h : d.Minimal) (he : e.Minimal)
    (hsame : SameLanguage d e) : σ d.start = e.start := by
  apply he.separated _ (hσ.lt _ h.start_lt) _ he.start_lt
  intro w
  rw [hσ.words _ h.start_lt]
  exact hsame w

theorem WellFormed.lt_of_reaches (h : d.WellFormed)
    (hs : Reaches d.successors [d.start] s) : s < d.size := by
  obtain ⟨u, hu⟩ := h.reaches_iff.1 hs
  exact h.stepAll?_lt h.start_lt hu

/-- The correspondence between minimal automata is the identity on numbers, as it is
compatible with the exploration that the numbers come from. -/
theorem Matches.range_eq (hσ : Matches d e σ) (h : d.Minimal) (he : e.Minimal)
    (hsame : SameLanguage d e) : List.range e.size = (List.range d.size).map σ := by
  rw [← he.numbered, ← h.numbered, ← hσ.start h he hsame]
  have hstart : e.start = σ d.start := (hσ.start h he hsame).symm
  have henough := he.toCanonical.enough_successors
  rw [hstart] at henough
  refine explore_map h.toCanonical.enough_successors henough ?_ ?_
  · intro s t hs ht heq
    exact hσ.injective h (h.toCanonical.lt_of_reaches hs) (h.toCanonical.lt_of_reaches ht) heq
  · intro s hs
    rw [successors, hσ.row h he (h.toCanonical.lt_of_reaches hs), Row.relabel, successors,
      List.map_map, List.map_map]
    rfl

/-- A minimal automaton is determined by its words. -/
theorem Minimal.eq_of_accepts_eq (h : d.Minimal) (he : e.Minimal) (hsame : SameLanguage d e) :
    d = e := by
  obtain ⟨σ, hσ⟩ := h.toTrim.exists_matches he.toCanonical.toWellFormed hsame
  have hrange := hσ.range_eq h he hsame
  have hsize : e.size = d.size := by
    have := congrArg List.length hrange
    simpa using this
  have hid : ∀ s < d.size, σ s = s := by
    intro s hs
    have hget : (List.range e.size)[s]? = ((List.range d.size).map σ)[s]? := by rw [hrange]
    rw [List.getElem?_range (hsize ▸ hs), List.getElem?_map, List.getElem?_range hs] at hget
    exact (Option.some.inj hget).symm
  refine eq_of_rows ?_ hsize.symm ?_ ?_
  · rw [← hσ.start h he hsame, hid _ h.start_lt]
  · intro s hs
    have hnil := hσ.words s hs []
    rw [hid s hs] at hnil
    exact hnil.symm
  · intro s hs
    have hrow := hσ.row h he hs
    rw [hid s hs] at hrow
    have hmap : (d.row s).relabel σ = (d.row s).map id := by
      refine List.map_congr_left fun t ht => ?_
      rw [hid t.target (h.toCanonical.target_lt_row ht)]
      rfl
    rw [hrow, hmap, List.map_id]

/-! ## Minimization -/

theorem accepts_empty (w : List Char) : empty.accepts w = false := by
  cases w <;> rfl

theorem canonical_empty : empty.Canonical where
  start_lt := by decide
  target_lt := by decide
  ordered := by decide
  joined := by decide

/-- The result of minimization is a minimal automaton, unless no word is accepted. -/
theorem WellFormed.minimized_cases (h : d.WellFormed) :
    (d.minimized.Minimal ∧ ∃ w, d.accepts w = true) ∨
    (d.minimized = empty ∧ ∀ w, d.accepts w = false) := by
  rw [minimized]
  cases ht : d.trim? with
  | none =>
      right
      exact ⟨rfl, h.trim?_eq_none_iff.1 ht⟩
  | some t =>
      left
      obtain ⟨htrim, hwords⟩ := h.trim_of_trim? ht
      obtain ⟨w, hw⟩ := htrim.productive t.start htrim.start_lt
      exact ⟨htrim.minimal_quotient, w, by rw [← hwords, accepts, hw]⟩

/-- Minimization keeps the words. -/
theorem WellFormed.accepts_minimized (h : d.WellFormed) (w : List Char) :
    d.minimized.accepts w = d.accepts w := by
  rw [minimized]
  cases ht : d.trim? with
  | none => exact (accepts_empty w).trans (h.trim?_eq_none_iff.1 ht w).symm
  | some t =>
      obtain ⟨htrim, hwords⟩ := h.trim_of_trim? ht
      exact (htrim.accepts_quotient w).trans (hwords w)

theorem WellFormed.canonical_minimized (h : d.WellFormed) : d.minimized.Canonical := by
  rcases h.minimized_cases with ⟨hminimal, -⟩ | ⟨hempty, -⟩
  · exact hminimal.toCanonical
  · rw [hempty]
    exact canonical_empty

theorem WellFormed.size_minimized_le (h : d.WellFormed) (he : e.WellFormed)
    (hsame : SameLanguage d e) : d.minimized.size ≤ e.size := by
  rcases h.minimized_cases with ⟨hminimal, -⟩ | ⟨hempty, -⟩
  · exact hminimal.size_le he fun w => (h.accepts_minimized w).trans (hsame w)
  · rw [hempty]
    exact Nat.lt_of_le_of_lt (Nat.zero_le _) he.start_lt

/-- Two automata have the same minimal automaton if and only if they accept the same
words. -/
theorem WellFormed.minimized_eq_iff (h : d.WellFormed) (he : e.WellFormed) :
    d.minimized = e.minimized ↔ SameLanguage d e := by
  constructor
  · intro heq w
    rw [← h.accepts_minimized, heq, he.accepts_minimized]
  · intro hsame
    rcases h.minimized_cases with ⟨hd, w, hw⟩ | ⟨hd, hnone⟩
    · rcases he.minimized_cases with ⟨he', -⟩ | ⟨-, hnone⟩
      · apply hd.eq_of_accepts_eq he'
        intro w
        rw [h.accepts_minimized, he.accepts_minimized, hsame w]
      · rw [hsame w, hnone w] at hw
        cases hw
    · rcases he.minimized_cases with ⟨-, w, hw⟩ | ⟨he', -⟩
      · rw [← hsame w, hnone w] at hw
        cases hw
      · rw [hd, he']

theorem language_eq_iff : d.language = e.language ↔ SameLanguage d e := by
  constructor
  · intro heq w
    rw [Bool.eq_iff_iff]
    exact Set.ext_iff.1 heq w
  · intro hsame
    ext w
    show d.accepts w = true ↔ e.accepts w = true
    rw [hsame w]

/-- Minimization keeps the language, no well-formed automaton for the language is
smaller, and two automata have the same minimal automaton, numbers included, if and
only if they have the same language. -/
theorem minimized_spec (d : Dfa) (h : d.WellFormed) :
    d.minimized.language = d.language ∧
    (∀ e : Dfa, e.WellFormed → e.language = d.language → d.minimized.size ≤ e.size) ∧
    (∀ e : Dfa, e.WellFormed →
      (d.minimized = e.minimized ↔ d.language = e.language)) := by
  refine ⟨?_, ?_, ?_⟩
  · exact language_eq_iff.2 h.accepts_minimized
  · intro e he heq
    exact h.size_minimized_le he (language_eq_iff.1 heq.symm)
  · intro e he
    rw [h.minimized_eq_iff he, language_eq_iff]

/-- One character of `a, b, c`, with a row that is cut and two states too many. -/
def splitRange : Dfa :=
  ⟨0, [⟨false, [⟨⟨'a', 'b', by decide⟩, 1⟩, ⟨.singleton 'c', 2⟩]⟩, ⟨true, []⟩, ⟨true, []⟩,
    .idle]⟩

theorem minimized_spec_splitRange :
    splitRange.minimized.language = splitRange.language ∧
    splitRange.minimized.size ≤ (ofRange 'a' 'c').size ∧
    splitRange.language = (ofRange 'a' 'c').language := by
  have hsplit : splitRange.WellFormed := ⟨by decide, by decide, by decide⟩
  have hrange : (ofRange 'a' 'c').WellFormed := ⟨by decide, by decide, by decide⟩
  have hsame : splitRange.language = (ofRange 'a' 'c').language :=
    ((minimized_spec splitRange hsplit).2.2 _ hrange).1 (by decide +kernel)
  exact ⟨(minimized_spec splitRange hsplit).1,
    (minimized_spec splitRange hsplit).2.1 _ hrange hsame.symm, hsame⟩

end PatternAutomata.Dfa
