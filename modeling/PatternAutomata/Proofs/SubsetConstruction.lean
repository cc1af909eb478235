import PatternAutomata.Proofs.Numbering
import PatternAutomata.Proofs.Representation

/-!
# The states of a determinized automaton

Every transition of a nondeterministic automaton that is put together step by step leads
somewhere, so no set of states that a word leads to is empty: it consists of the ends of
the paths for the word. The states of the deterministic automaton are numbers of these
sets, one for each, whatever silent cycles and overlapping transitions there are.

Two loops are involved, the closure under silent steps and the drawing of the sets that
are met. Neither breaks off early: there are finitely many states and sets, and each gets
to wait once.

## Main results

* `Exploration.Sound.drains`: an exploration goes on until no node waits.
* `Nfa.stepAll?_subsets_start`: the set that a word leads to.
* `Nfa.determinize_edits`: words, states and termination of the subset construction.
-/

namespace PatternAutomata

open Exploration PatternAutomata.Interval

/-! ## Explorations without a bound -/

/-- An exploration whose bound suffices goes on until no node waits. -/
theorem Exploration.Sound.drains {κ : Type u} [DecidableEq κ] {successors : κ → List κ}
    {univ pending seen : List κ} {bound : Nat}
    (h : Sound successors univ bound pending seen) (d : Discipline) :
    Drains d (look successors) pending seen (run d successors bound pending seen) := by
  induction bound generalizing pending seen with
  | zero =>
    -- The invariant has a step left for each node that waits, so none does.
    obtain rfl := List.length_eq_zero_iff.1 (Nat.le_zero.1 h.length_le)
    exact .done seen
  | succ bound ih =>
    cases pending with
    | nil => exact .done seen
    | cons k pending => exact .next rfl (ih (h.step d))

/-! ## Transitions that lead somewhere -/

namespace Fan

/-- No interval has an empty set of targets. -/
def Live (fan : Fan) : Prop := ∀ c targets, fan.find? c = some targets → ∃ t, t ∈ targets

theorem live_empty : Live ∅ := by
  intro c targets h
  cases h

theorem Live.insert {fan : Fan} (hlive : fan.Live) (h : fan.Ordered) (key : Interval)
    {new : StateSet} (hnew : ∃ t, t ∈ new) : Live (fan.insert (· ∪ ·) key new) := by
  intro c targets hfind
  rw [IntervalMap.find?_insert _ h] at hfind
  by_cases hc : c ∈ key
  · rw [if_pos hc, Option.some_inj] at hfind
    obtain ⟨t, ht⟩ := hnew
    refine ⟨t, ?_⟩
    rw [← hfind]
    cases fan.find? c with
    | none => exact ht
    | some old => exact Std.ExtTreeSet.mem_union_iff.2 (.inr ht)
  · rw [if_neg hc] at hfind
    exact hlive c targets hfind

theorem Live.of_mem {fan : Fan} (hlive : fan.Live) (h : fan.Ordered) {e : Interval × StateSet}
    (he : e ∈ fan.entries) : ∃ t, t ∈ e.2 :=
  hlive e.1.lo e.2 ((IntervalMap.find?_eq_some_iff h).2 ⟨e.1, he, e.1.lo_mem⟩)

end Fan

namespace Nfa

variable {a : Nfa} {states last : StateSet} {s t : Nat} {c : Char} {w : List Char}

/-- All transitions of all states lead somewhere, and are in order. -/
structure Live (a : Nfa) : Prop where
  tidy : a.Tidy
  live : ∀ s, ((a.fan? s).getD ∅).Live

theorem live_empty : empty.Live where
  tidy := tidy_empty
  live := fun s => by
    rw [show empty.fan? s = none from Std.ExtTreeMap.getElem?_empty]
    exact Fan.live_empty

theorem Live.of_fans_eq {b : Nfa} (h : a.Live) (heq : b.fans = a.fans) : b.Live where
  tidy := tidy_of_fans_eq h.tidy heq
  live := fun s => by
    rw [fan?, heq]
    exact h.live s

theorem Live.addTransition (h : a.Live) (s : Nat) (i : Interval) (t : Nat) :
    (a.addTransition s i t).Live where
  tidy := tidy_addTransition h.tidy s i t
  live := fun u => by
    rw [fan?_addTransition]
    by_cases hu : u = s
    · rw [if_pos hu]
      exact (h.live s).insert (h.tidy s) i ⟨t, StateSet.mem_singleton.2 rfl⟩
    · rw [if_neg hu]
      exact h.live u

theorem Live.addRow (h : a.Live) (offset s : Nat) (row : Row) : (a.addRow offset s row).Live :=
  List.foldlRecOn row _ h fun _ hb t _ => hb.addTransition s t.on (offset + t.target)

theorem Live.embed (h : a.Live) (d : Dfa) : (a.embed d).2.Live :=
  List.foldlRecOn (List.range d.size) _ (h.of_fans_eq rfl) fun _ hb s _ =>
    hb.addRow (a.last + 1) (a.last + 1 + s) (d.row s)

/-- A step of putting an automaton together adds transitions that lead somewhere. -/
theorem Live.edit (h : a.Live) (e : Edit) : (a.edit e).Live := by
  cases e with
  | fresh => exact h.of_fans_eq rfl
  | setStart s => exact h.of_fans_eq rfl
  | addAccepting s => exact h.of_fans_eq rfl
  | addSilent source target => exact h.of_fans_eq rfl
  | addTransition source on target => exact h.addTransition source on target
  | embed d => exact h.embed d

theorem live_edits (edits : List Edit) : (edits.foldl edit empty).Live :=
  List.foldlRecOn edits _ live_empty fun _ ha e _ => ha.edit e

theorem Live.overlay (h : a.Live) (states : StateSet) : (a.overlay states).Live := by
  -- An insertion keeps targets non-empty only where the entries are in order, so the order
  -- goes along.
  have hall : (a.overlay states).Ordered ∧ (a.overlay states).Live := by
    refine List.foldlRecOn (motive := fun all : Fan => all.Ordered ∧ all.Live) states.toList _
      ⟨Fan.ordered_empty, Fan.live_empty⟩ fun all hall s _ => ?_
    refine List.foldlRecOn (motive := fun all : Fan => all.Ordered ∧ all.Live) _ _ hall
      fun all hall e he => ?_
    exact ⟨IntervalMap.ordered_insert _ hall.1 e.1 e.2,
      hall.2.insert hall.1 e.1 ((h.live s).of_mem (h.tidy s) he)⟩
  exact hall.2

/-! ## The sets that words lead to -/

theorem Live.exists_mem_of_stepAll? (h : a.Live) (hstates : ∃ s, s ∈ states)
    (hrun : a.subsets.stepAll? states w = some last) : ∃ t, t ∈ last := by
  induction w generalizing states with
  | nil =>
    cases hrun
    exact hstates
  | cons c w ih =>
    rw [Machine.stepAll?_cons, Option.bind_eq_some_iff] at hrun
    obtain ⟨next, hstep, hrun⟩ := hrun
    rw [step?_subsets, Option.map_eq_some_iff] at hstep
    obtain ⟨targets, hfind, rfl⟩ := hstep
    obtain ⟨t, ht⟩ := h.overlay states c targets hfind
    exact ih ⟨t, mem_closure_iff.2 ⟨t, ht, .nil t⟩⟩ hrun

theorem mem_subsets_start : t ∈ a.subsets.start ↔ Path a a.start [] t := by
  rw [show a.subsets.start = a.closure {a.start} from rfl, mem_closure_iff]
  simp

/-- A word leads to the set of the ends of its paths, if it has any. -/
theorem Live.stepAll?_subsets_start (h : a.Live) :
    a.subsets.stepAll? a.subsets.start w = some last ↔
      (∃ t, t ∈ last) ∧ ∀ t, t ∈ last ↔ Path a a.start w t := by
  have hclosed : a.SilentClosed a.subsets.start := a.silentClosed_closure _
  have hstart : a.start ∈ a.subsets.start := mem_subsets_start.2 (.nil _)
  have hmem : ∀ {last}, a.subsets.stepAll? a.subsets.start w = some last →
      ∀ t, t ∈ last ↔ Path a a.start w t := fun hrun t => by
    rw [mem_of_stepAll?_subsets h.tidy hclosed hrun]
    constructor
    · rintro ⟨s, hs, hpath⟩
      exact path_append (mem_subsets_start.1 hs) hpath
    · exact fun hpath => ⟨a.start, hstart, hpath⟩
  constructor
  · exact fun hrun => ⟨h.exists_mem_of_stepAll? ⟨a.start, hstart⟩ hrun, hmem hrun⟩
  · rintro ⟨⟨t, ht⟩, hlast⟩
    obtain ⟨last', hrun⟩ := exists_stepAll?_subsets h.tidy hclosed hstart ((hlast t).1 ht)
    rw [hrun, Option.some_inj]
    refine Std.ExtTreeSet.ext_mem fun u => ?_
    rw [hmem hrun, hlast]

/-! ## Termination -/

/-- A closure is what there is once no state waits whose silent transitions have not been
looked at. -/
theorem closure_drains (a : Nfa) (states : StateSet) :
    ∃ found, Drains .stack (look fun s => (a.silentFrom s).toList) states.toList.reverse
      states.toList found ∧ a.closure states = .ofList found := by
  have henough := a.enough_silent states
  have hsound : Sound (fun s => (a.silentFrom s).toList) (states.toList ++ a.silentTargets)
      (states.toList ++ a.silentTargets).length states.toList.reverse states.toList :=
    { nodup := Std.ExtTreeSet.distinct_toList.imp fun hne heq => hne (by simp [heq])
      seen_subset := henough.starts_subset
      pending_subset := fun _ hs => List.mem_reverse.1 hs
      closed := henough.closed
      expanded := fun _ hs => .inl (List.mem_reverse.2 hs)
      room := by rw [List.length_reverse] }
  refine ⟨_, hsound.drains .stack, Std.ExtTreeSet.ext_mem fun t => ?_⟩
  rw [closure, StateSet.mem_ofList, StateSet.mem_ofList, henough.mem_explore_iff,
    hsound.mem_run_iff fun _ => Iff.rfl]

/-- The sets are drawn until none waits. -/
theorem determinize_drains (h : a.Tidy) :
    ∃ x, Drains .stack (Draft.draw (Checked.subsets a) Checked.insertRow)
      [a.closure {a.start}] (.init (a.closure {a.start})) x ∧ x.dfa = a.determinize :=
  ⟨_, Draft.drains_insertRow (Checked.subsets_reads a) (confined_subsets h) .stack, rfl⟩

/-! ## The automaton -/

/-- Whatever steps put a nondeterministic automaton together, the subset construction comes
to an end, as does each closure it takes, and gives an automaton that accepts the words of
the paths to accepting states. Its states are numbers of the sets of states that consist,
for some word, of the ends of the paths for the word; all of these are non-empty. -/
theorem determinize_edits {edits : List Edit} (h : ∀ d, .embed d ∈ edits → d.WellFormed) :
    ∃ a, edits.foldlM Checked.edit .empty = pure a ∧
      (∀ states, ∃ found, Drains .stack (look fun s => (a.silentFrom s).toList)
        states.toList.reverse states.toList found ∧ a.closure states = .ofList found) ∧
      (∃ x, Drains .stack (Draft.draw (Checked.subsets a) Checked.insertRow)
        [a.closure {a.start}] (.init (a.closure {a.start})) x ∧ x.dfa = a.determinize) ∧
      (∀ w, a.determinize.accepts w = true ↔ a.Accepts w) ∧
      ∃ sets, a.determinize.Numbers sets fun w (states : StateSet) =>
        (∃ t, t ∈ states) ∧ ∀ t, t ∈ states ↔ Path a a.start w t := by
  obtain ⟨hedits, htidy⟩ := Checked.foldlM_edit h
  have hlive := live_edits edits
  refine ⟨edits.foldl edit .empty, hedits, closure_drains _, determinize_drains htidy,
    accepts_determinize htidy, ?_⟩
  obtain ⟨sets, hsets⟩ := (confined_subsets htidy).numbers_toDfa .stack
  simp only [hlive.stepAll?_subsets_start] at hsets
  exact ⟨sets, hsets⟩

/-- Transitions that overlap, from two states on a silent cycle, and a copy of an automaton
behind one of them. -/
def crossing : List Edit :=
  [.fresh, .fresh, .addSilent 0 1, .addSilent 1 0, .addTransition 0 ⟨'a', 'j', by decide⟩ 2,
    .addTransition 1 ⟨'e', 'o', by decide⟩ 1, .embed Dfa.splitRange, .addSilent 2 3,
    .addAccepting 4, .addAccepting 5]

/-- Seven sets of states are met. -/
theorem determinize_edits_crossing :
    (∀ d, .embed d ∈ crossing → d.WellFormed) ∧
    ∃ a, crossing.foldlM Checked.edit .empty = pure a ∧ a.Accepts ['k', 'g', 'b'] ∧
      ¬ a.Accepts ['a', 'k'] ∧
      ∃ sets, Set.BijOn sets (Set.Iio 7) {states : StateSet | ∃ w,
        (∃ t, t ∈ states) ∧ ∀ t, t ∈ states ↔ Path a a.start w t} := by
  have hembed : ∀ d, .embed d ∈ crossing → d.WellFormed := by
    intro d hd
    obtain rfl : d = Dfa.splitRange := by simpa [crossing] using hd
    exact ⟨by decide, by decide, by decide⟩
  obtain ⟨a, hedits, -, -, haccepts, sets, hsets⟩ := determinize_edits hembed
  have ha : crossing.foldl edit .empty = a :=
    Except.ok.inj ((Checked.foldlM_edit hembed).1.symm.trans hedits)
  refine ⟨hembed, a, hedits, (haccepts _).1 ?_, fun h => ?_, sets, ?_⟩
  · rw [← ha]
    decide +kernel
  · have hfalse : a.determinize.accepts ['a', 'k'] = false := by
      rw [← ha]
      decide +kernel
    rw [← haccepts, hfalse] at h
    cases h
  · have hsize : a.determinize.size = 7 := by
      rw [← ha]
      decide +kernel
    rw [← hsize]
    exact hsets.bijOn

end Nfa

end PatternAutomata
