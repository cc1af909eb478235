import Mathlib.Data.List.Sublists
import PatternAutomata.Nfa.Determinization
import PatternAutomata.Proofs.Paths
import PatternAutomata.Proofs.Tabulation

/-!
# The subset construction keeps the words

A set of states that is closed under silent steps accepts a word if a path for the word
leads from a member to an accepting state. Reading a character leads from such a set to
the closure of all that its members lead to, so the machine of sets accepts what the
automaton does.

All sets that are met consist of the start and of targets of steps. There are only
finitely many of them, within the bound that the construction uses.

## Main results

* `mem_closure_iff`: closure in terms of paths.
* `mem_of_stepAll?_subsets`: where a word leads from a closed set.
* `acceptsFrom_subsets`: the words of a closed set.
* `accepts_determinize`, `canonical_determinize`: the automaton that results.
-/

namespace PatternAutomata

open Exploration PatternAutomata.Interval

/-! ## Laying fans over each other -/

namespace Fan

theorem foldl_insert_spec {fan : Fan} (h : fan.Ordered) (entries : List (Interval × StateSet)) :
    IntervalMap.Ordered (entries.foldl (fun all e => all.insert (· ∪ ·) e.1 e.2) fan) ∧
    ∀ c t, Leads (entries.foldl (fun all e => all.insert (· ∪ ·) e.1 e.2) fan) c t ↔
      fan.Leads c t ∨ ∃ e ∈ entries, c ∈ e.1 ∧ t ∈ e.2 := by
  induction entries generalizing fan with
  | nil => exact ⟨h, by simp⟩
  | cons e entries ih =>
      obtain ⟨hordered, hleads⟩ := ih (IntervalMap.ordered_insert (· ∪ ·) h e.1 e.2)
      refine ⟨hordered, fun c t => ?_⟩
      rw [List.foldl_cons, hleads, leads_insert h]
      simp only [List.mem_cons, exists_eq_or_imp]
      exact or_assoc

end Fan

namespace Nfa

variable {a : Nfa} {states : StateSet} {s t : Nat} {c : Char} {w : List Char}

theorem foldl_overlay_spec (h : a.Tidy) (states : List Nat) {all : Fan} (hall : all.Ordered) :
    let laid := states.foldl (fun all s => (((a.fan? s).getD ∅).entries).foldl
      (fun all e => all.insert (· ∪ ·) e.1 e.2) all) all
    laid.Ordered ∧ ∀ c t, laid.Leads c t ↔ all.Leads c t ∨ ∃ s ∈ states, a.Reads s c t := by
  induction states generalizing all with
  | nil => exact ⟨hall, by simp⟩
  | cons s states ih =>
      obtain ⟨hordered, hleads⟩ := Fan.foldl_insert_spec hall ((a.fan? s).getD ∅).entries
      obtain ⟨hordered', hleads'⟩ := ih hordered
      refine ⟨hordered', fun c t => ?_⟩
      rw [List.foldl_cons, hleads', hleads, ← Fan.leads_iff (h s)]
      simp only [List.mem_cons, exists_eq_or_imp]
      exact or_assoc

theorem ordered_overlay (h : a.Tidy) (states : StateSet) : (a.overlay states).Ordered :=
  (foldl_overlay_spec h states.toList Fan.ordered_empty).1

/-- The overlay leads where a member leads. -/
theorem leads_overlay (h : a.Tidy) (states : StateSet) (c : Char) (t : Nat) :
    (a.overlay states).Leads c t ↔ ∃ s ∈ states, a.Reads s c t := by
  rw [overlay, (foldl_overlay_spec h states.toList Fan.ordered_empty).2]
  simp only [Fan.not_leads_empty, false_or, Std.ExtTreeSet.mem_toList]

/-! ## Closure under silent steps -/

theorem mem_silentTargets (h : t ∈ a.silentFrom s) : t ∈ a.silentTargets := by
  rw [silentFrom] at h
  cases hs : a.silent[s]? with
  | none =>
      rw [hs, Option.getD_none] at h
      exact absurd h Std.ExtTreeSet.not_mem_empty
  | some targets =>
      rw [hs, Option.getD_some] at h
      rw [silentTargets, List.mem_flatMap]
      exact ⟨(s, targets), Std.ExtTreeMap.mem_toList_iff_getElem?_eq_some.2 hs,
        Std.ExtTreeSet.mem_toList.2 h⟩

theorem enough_silent (a : Nfa) (states : StateSet) :
    Enough (fun s => (a.silentFrom s).toList) (states.size + a.silentTargets.length)
      states.toList (states.toList ++ a.silentTargets) where
  starts_subset := List.subset_append_left _ _
  closed := fun _ _ _ hl =>
    List.mem_append_right _ (mem_silentTargets (Std.ExtTreeSet.mem_toList.1 hl))
  length_le := by rw [List.length_append, Std.ExtTreeSet.length_toList]

theorem reaches_of_path_nil {starts : List Nat}
    (hs : Reaches (fun s => (a.silentFrom s).toList) starts s) (h : Path a s [] t) :
    Reaches (fun s => (a.silentFrom s).toList) starts t := by
  generalize hw : ([] : List Char) = w at h
  induction h with
  | nil => exact hs
  | silent hstep _ ih => exact ih (.step hs (Std.ExtTreeSet.mem_toList.2 hstep)) hw
  | read => cases hw

/-- The closure consists of the states that silent steps lead to. -/
theorem mem_closure_iff : t ∈ a.closure states ↔ ∃ s ∈ states, Path a s [] t := by
  rw [closure, StateSet.mem_ofList, (a.enough_silent states).mem_explore_iff]
  constructor
  · intro h
    induction h with
    | start hk => exact ⟨_, Std.ExtTreeSet.mem_toList.1 hk, .nil _⟩
    | step _ hl ih =>
        obtain ⟨s, hs, hpath⟩ := ih
        have hstep := Path.silent (Std.ExtTreeSet.mem_toList.1 hl) (.nil _)
        exact ⟨s, hs, path_append hpath hstep⟩
  · intro h
    obtain ⟨s, hs, hpath⟩ := h
    exact reaches_of_path_nil (.start (Std.ExtTreeSet.mem_toList.2 hs)) hpath

/-- Silent steps do not leave the set. -/
def SilentClosed (a : Nfa) (states : StateSet) : Prop :=
  ∀ s ∈ states, ∀ t, Path a s [] t → t ∈ states

theorem silentClosed_closure (a : Nfa) (states : StateSet) :
    a.SilentClosed (a.closure states) := by
  intro s hs t hpath
  obtain ⟨r, hr, hpath'⟩ := mem_closure_iff.1 hs
  exact mem_closure_iff.2 ⟨r, hr, path_append hpath' hpath⟩

/-! ## The machine of sets -/

theorem step?_subsets (a : Nfa) (states : StateSet) (c : Char) :
    a.subsets.step? states c = ((a.overlay states).find? c).map a.closure :=
  valueAt?_map a.closure (a.overlay states).entries c

/-- The first character of a path is read on a path of its own. -/
theorem Path.exists_tail (h : Path a s (c :: w) t) : ∃ u, Path a s [c] u ∧ Path a u w t := by
  obtain ⟨s', u, hsilent, hreads, hpath⟩ := path_cons_iff.1 h
  exact ⟨u, path_append hsilent (.of_reads hreads (.nil u)), hpath⟩

/-- Reading a character leads from a closed set to all states that paths lead to. -/
theorem mem_of_step?_subsets (h : a.Tidy) (hclosed : a.SilentClosed states) {next : StateSet}
    (hstep : a.subsets.step? states c = some next) :
    a.SilentClosed next ∧ ∀ t, t ∈ next ↔ ∃ s ∈ states, Path a s [c] t := by
  rw [step?_subsets, Option.map_eq_some_iff] at hstep
  obtain ⟨targets, hfind, rfl⟩ := hstep
  have hleads := leads_overlay h states c
  refine ⟨a.silentClosed_closure targets, fun t => mem_closure_iff.trans ?_⟩
  constructor
  · intro hu
    obtain ⟨u, hu, hsilent⟩ := hu
    obtain ⟨s, hs, hreads⟩ := (hleads u).1 ⟨targets, hfind, hu⟩
    exact ⟨s, hs, .of_reads hreads hsilent⟩
  · intro hs
    obtain ⟨s, hs, hpath⟩ := hs
    obtain ⟨s', u, hsilent, hreads, hpath⟩ := path_cons_iff.1 hpath
    -- The silent steps before the character stay within the set, since it is closed.
    obtain ⟨targets', hfind', hu⟩ := (hleads u).2 ⟨s', hclosed s hs s' hsilent, hreads⟩
    rw [hfind, Option.some_inj] at hfind'
    exact ⟨u, hfind' ▸ hu, hpath⟩

/-- A character that a path begins with can be read. -/
theorem exists_step?_subsets (h : a.Tidy) (hclosed : a.SilentClosed states) (hs : s ∈ states)
    (hpath : Path a s (c :: w) t) : ∃ next, a.subsets.step? states c = some next := by
  obtain ⟨s', u, hsilent, hreads, -⟩ := path_cons_iff.1 hpath
  obtain ⟨targets, hfind, -⟩ := (leads_overlay h states c u).2 ⟨s', hclosed s hs s' hsilent, hreads⟩
  exact ⟨a.closure targets, by rw [step?_subsets, hfind]; rfl⟩

/-- A word leads from a closed set to all states that paths lead to. -/
theorem mem_of_stepAll?_subsets (h : a.Tidy) (hclosed : a.SilentClosed states) {last : StateSet}
    (hrun : a.subsets.stepAll? states w = some last) (t : Nat) :
    t ∈ last ↔ ∃ s ∈ states, Path a s w t := by
  induction w generalizing states with
  | nil =>
      cases hrun
      exact ⟨fun ht => ⟨t, ht, .nil t⟩, fun ⟨s, hs, hpath⟩ => hclosed s hs t hpath⟩
  | cons c w ih =>
      rw [Machine.stepAll?_cons, Option.bind_eq_some_iff] at hrun
      obtain ⟨next, hstep, hrun⟩ := hrun
      obtain ⟨hnext, hmem⟩ := mem_of_step?_subsets h hclosed hstep
      rw [ih hnext hrun]
      constructor
      · rintro ⟨u, hu, hpath⟩
        obtain ⟨s, hs, hfirst⟩ := (hmem u).1 hu
        exact ⟨s, hs, path_append hfirst hpath⟩
      · rintro ⟨s, hs, hpath⟩
        obtain ⟨u, hfirst, hpath⟩ := hpath.exists_tail
        exact ⟨u, (hmem u).2 ⟨s, hs, hfirst⟩, hpath⟩

/-- A word of a path can be read. -/
theorem exists_stepAll?_subsets (h : a.Tidy) (hclosed : a.SilentClosed states) (hs : s ∈ states)
    (hpath : Path a s w t) : ∃ last, a.subsets.stepAll? states w = some last := by
  induction w generalizing states s with
  | nil => exact ⟨states, rfl⟩
  | cons c w ih =>
      obtain ⟨next, hstep⟩ := exists_step?_subsets h hclosed hs hpath
      obtain ⟨hnext, hmem⟩ := mem_of_step?_subsets h hclosed hstep
      obtain ⟨u, hfirst, hpath⟩ := hpath.exists_tail
      obtain ⟨last, hrun⟩ := ih hnext ((hmem u).2 ⟨s, hs, hfirst⟩) hpath
      exact ⟨last, by rw [Machine.stepAll?_cons, hstep]; exact hrun⟩

/-- A closed set accepts the words of the paths from its members. -/
theorem acceptsFrom_subsets (h : a.Tidy) (hclosed : a.SilentClosed states) (w : List Char) :
    a.subsets.acceptsFrom states w = true ↔
      ∃ s ∈ states, ∃ t, a.isAccepting t = true ∧ Path a s w t := by
  have haccepting : ∀ last, a.subsets.accepting last = true ↔
      ∃ t ∈ last, a.isAccepting t = true := fun last => by
    rw [show a.subsets.accepting last = last.toList.any a.isAccepting from rfl, List.any_eq_true]
    simp only [Std.ExtTreeSet.mem_toList]
  rw [Machine.acceptsFrom, Option.any_eq_true]
  constructor
  · rintro ⟨last, hrun, hlast⟩
    obtain ⟨t, ht, haccept⟩ := (haccepting last).1 hlast
    obtain ⟨s, hs, hpath⟩ := (mem_of_stepAll?_subsets h hclosed hrun t).1 ht
    exact ⟨s, hs, t, haccept, hpath⟩
  · rintro ⟨s, hs, t, haccept, hpath⟩
    obtain ⟨last, hrun⟩ := exists_stepAll?_subsets h hclosed hs hpath
    have ht := (mem_of_stepAll?_subsets h hclosed hrun t).2 ⟨s, hs, hpath⟩
    exact ⟨last, hrun, (haccepting last).2 ⟨t, ht, haccept⟩⟩

/-! ## The sets that can be met -/

theorem mem_inhabitable_of_path (hs : s ∈ a.inhabitable) (h : Path a s [] t) :
    t ∈ a.inhabitable := by
  generalize hw : ([] : List Char) = w at h
  induction h with
  | nil => exact hs
  | silent hstep _ ih =>
      refine ih (mem_distinct.2 ?_) hw
      exact List.mem_append_left _ (List.mem_cons_of_mem _ (mem_silentTargets hstep))
  | read => cases hw

theorem mem_inhabitable_of_reads (h : a.Tidy) (hreads : a.Reads s c t) :
    t ∈ a.inhabitable := by
  obtain ⟨fan, targets, hfan, hfind, ht⟩ := reads_iff.1 hreads
  have hordered : fan.Ordered := by
    have := h s
    rwa [hfan] at this
  obtain ⟨i, hi, -⟩ := (IntervalMap.find?_eq_some_iff hordered).1 hfind
  refine mem_distinct.2 (List.mem_append_right _ (List.mem_flatMap.2 ?_))
  refine ⟨(s, fan), Std.ExtTreeMap.mem_toList_iff_getElem?_eq_some.2 hfan, ?_⟩
  exact List.mem_flatMap.2 ⟨(i, targets), hi, Std.ExtTreeSet.mem_toList.2 ht⟩

/-- The sets of states that the automaton can get into. -/
def inhabitableSets (a : Nfa) : List StateSet :=
  a.inhabitable.sublists.map fun states => Std.ExtTreeSet.ofList states

theorem mem_inhabitableSets (h : ∀ s ∈ states, s ∈ a.inhabitable) :
    states ∈ a.inhabitableSets := by
  refine List.mem_map.2 ⟨a.inhabitable.filter (· ∈ states), ?_, ?_⟩
  · exact List.mem_sublists.2 List.filter_sublist
  · apply Std.ExtTreeSet.ext_mem
    intro s
    rw [StateSet.mem_ofList, List.mem_filter, decide_eq_true_iff]
    exact ⟨fun hs => hs.2, fun hs => ⟨h s hs, hs⟩⟩

theorem confined_subsets (h : a.Tidy) :
    a.subsets.Confined (Nat.pow 2 a.inhabitable.length) a.inhabitableSets where
  start_mem := by
    apply mem_inhabitableSets
    intro t ht
    obtain ⟨s, hs, hpath⟩ := mem_closure_iff.1 ht
    rw [StateSet.mem_singleton] at hs
    have hstart : a.start ∈ a.inhabitable := mem_distinct.2 (by simp)
    exact mem_inhabitable_of_path (hs ▸ hstart) hpath
  closed := fun states _ next hnext => by
    obtain ⟨e, he, rfl⟩ := List.mem_map.1 hnext
    obtain ⟨⟨i, targets⟩, hi, rfl⟩ := List.mem_map.1 he
    apply mem_inhabitableSets
    intro t ht
    obtain ⟨s, hs, hpath⟩ := mem_closure_iff.1 ht
    have hlead : (a.overlay states).Leads i.lo s :=
      (Fan.leads_iff (ordered_overlay h states)).2 ⟨(i, targets), hi, i.lo_mem, hs⟩
    obtain ⟨r, -, hreads⟩ := (leads_overlay h states i.lo s).1 hlead
    exact mem_inhabitable_of_path (mem_inhabitable_of_reads h hreads) hpath
  ascending := fun states _ => by
    have hordered := ordered_overlay h states
    rw [IntervalMap.Ordered] at hordered
    rw [show a.subsets.edges states =
      (a.overlay states).entries.map fun e => (e.1, a.closure e.2) from rfl, List.map_map]
    exact hordered
  length_le := by simp [inhabitableSets]

/-- The deterministic automaton accepts the words that the other one accepts. -/
theorem accepts_determinize (h : a.Tidy) (w : List Char) :
    a.determinize.accepts w = true ↔ a.Accepts w := by
  rw [determinize, (confined_subsets h).accepts_toDfa, Machine.accepts,
    show a.subsets.start = a.closure {a.start} from rfl,
    acceptsFrom_subsets h (a.silentClosed_closure _)]
  constructor
  · intro hs
    obtain ⟨s, hs, t, haccept, hpath⟩ := hs
    obtain ⟨r, hr, hsilent⟩ := mem_closure_iff.1 hs
    rw [StateSet.mem_singleton] at hr
    subst hr
    exact ⟨t, haccept, path_append hsilent hpath⟩
  · intro hw
    obtain ⟨t, haccept, hpath⟩ := hw
    refine ⟨a.start, mem_closure_iff.2 ⟨a.start, ?_, .nil _⟩, t, haccept, hpath⟩
    exact StateSet.mem_singleton.2 rfl

theorem canonical_determinize (h : a.Tidy) : a.determinize.Canonical :=
  (confined_subsets h).canonical_toDfa .stack

end Nfa

end PatternAutomata
