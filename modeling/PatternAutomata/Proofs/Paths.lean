import Mathlib.Tactic.Tauto
import PatternAutomata.Dfa.Composition
import PatternAutomata.Proofs.IntervalMaps
import PatternAutomata.Proofs.Runs

/-!
# Paths of nondeterministic automata

A path is made of silent steps and of steps that read a character (`Reads`). What an
automaton can do is determined by these two kinds of steps, and each way to change an
automaton adds certain steps and changes nothing else. Paths are compared accordingly:
if all steps from a set of states are steps of another automaton and do not leave the
set, so it is with paths (`Path.transfer`).

A copy of a deterministic automaton (`embed`) is on states of its own. Reading a word
within the copy is what the automaton does.

## Main results

* `reads_addTransition`, `mem_silentFrom_addSilent`, `embedded_embed`: the steps after
  each change.
* `path_append`, `path_cons_iff`: paths in two parts.
* `Path.transfer`: paths within a set of states.
* `path_copy_iff`: paths from copied states.
-/

namespace PatternAutomata

open PatternAutomata.Interval

/-! ## Sets of states -/

namespace StateSet

theorem compare_eq_iff {s t : Nat} : compare s t = .eq ↔ t = s := by
  rw [Std.LawfulEqCmp.compare_eq_iff_eq, eq_comm]

@[simp] theorem mem_insert {states : StateSet} {s t : Nat} :
    t ∈ states.insert s ↔ t = s ∨ t ∈ states := by
  rw [Std.ExtTreeSet.mem_insert, compare_eq_iff]

@[simp] theorem mem_singleton {s t : Nat} : t ∈ ({s} : StateSet) ↔ t = s := by
  rw [show ({s} : StateSet) = (∅ : StateSet).insert s from rfl, mem_insert]
  simp

@[simp] theorem mem_ofList {states : List Nat} {t : Nat} :
    t ∈ (Std.ExtTreeSet.ofList states : StateSet) ↔ t ∈ states := by
  rw [Std.ExtTreeSet.mem_ofList, List.contains_iff_mem]

end StateSet

/-! ## Fans -/

namespace Fan

/-- Some interval that holds the character has the state among its targets. -/
def Leads (fan : Fan) (c : Char) (t : Nat) : Prop :=
  ∃ targets, fan.find? c = some targets ∧ t ∈ targets

theorem ordered_empty : IntervalMap.Ordered (∅ : Fan) := List.Pairwise.nil

theorem not_leads_empty (c : Char) (t : Nat) : ¬ Leads ∅ c t := by
  intro h
  obtain ⟨targets, hfind, -⟩ := h
  cases hfind

theorem leads_iff {fan : Fan} (h : fan.Ordered) {c : Char} {t : Nat} :
    fan.Leads c t ↔ ∃ e ∈ fan.entries, c ∈ e.1 ∧ t ∈ e.2 := by
  constructor
  · intro hlead
    obtain ⟨targets, hfind, ht⟩ := hlead
    obtain ⟨i, hi, hc⟩ := (IntervalMap.find?_eq_some_iff h).1 hfind
    exact ⟨(i, targets), hi, hc, ht⟩
  · intro he
    obtain ⟨⟨i, targets⟩, hi, hc, ht⟩ := he
    exact ⟨targets, (IntervalMap.find?_eq_some_iff h).2 ⟨i, hi, hc⟩, ht⟩

/-- Insertion adds the new targets to those that are there. -/
theorem leads_insert {fan : Fan} (h : fan.Ordered) (key : Interval) (new : StateSet)
    (c : Char) (t : Nat) :
    Leads (fan.insert (· ∪ ·) key new) c t ↔ fan.Leads c t ∨ (c ∈ key ∧ t ∈ new) := by
  unfold Leads
  rw [IntervalMap.find?_insert _ h]
  by_cases hc : c ∈ key
  · rw [if_pos hc]
    cases hfind : fan.find? c with
    | none => simp [hc]
    | some old => simp [hc]
  · rw [if_neg hc]
    simp [hc]

end Fan

namespace Nfa

variable {a b : Nfa} {s t u : Nat} {c : Char} {v w : List Char}

/-! ## Steps -/

/-- The automaton can go from a state to another by reading a character. -/
def Reads (a : Nfa) (s : Nat) (c : Char) (t : Nat) : Prop :=
  ((a.fan? s).getD ∅).Leads c t

theorem reads_iff : a.Reads s c t ↔
    ∃ fan targets, a.fan? s = some fan ∧ fan.find? c = some targets ∧ t ∈ targets := by
  unfold Reads
  cases hfan : a.fan? s with
  | none =>
      rw [Option.getD_none]
      constructor
      · intro h
        exact absurd h (Fan.not_leads_empty c t)
      · intro h
        obtain ⟨fan, targets, hsome, -⟩ := h
        cases hsome
  | some fan =>
      rw [Option.getD_some]
      constructor
      · intro h
        obtain ⟨targets, hfind, ht⟩ := h
        exact ⟨fan, targets, rfl, hfind, ht⟩
      · intro h
        obtain ⟨fan', targets, hsome, hfind, ht⟩ := h
        cases hsome
        exact ⟨targets, hfind, ht⟩

/-- The transitions of all states are in order. -/
def Tidy (a : Nfa) : Prop := ∀ s, ((a.fan? s).getD ∅).Ordered

/-- The transitions of the states that are not below `n` are in order. -/
def TidyFrom (a : Nfa) (n : Nat) : Prop := ∀ s, n ≤ s → ((a.fan? s).getD ∅).Ordered

theorem Tidy.tidyFrom (h : a.Tidy) (n : Nat) : a.TidyFrom n := fun s _ => h s

theorem tidy_empty : empty.Tidy := by
  intro s
  rw [show empty.fan? s = none from Std.ExtTreeMap.getElem?_empty]
  exact Fan.ordered_empty

@[simp] theorem not_reads_empty : ¬ empty.Reads s c t := by
  unfold Reads
  rw [show empty.fan? s = none from Std.ExtTreeMap.getElem?_empty]
  exact Fan.not_leads_empty c t

@[simp] theorem silentFrom_empty (s : Nat) : empty.silentFrom s = ∅ := by
  rw [silentFrom, show empty.silent[s]? = none from Std.ExtTreeMap.getElem?_empty]
  rfl

/-! ## Changes -/

theorem fan?_addTransition (a : Nfa) (s : Nat) (i : Interval) (t u : Nat) :
    (a.addTransition s i t).fan? u =
      if u = s then some (((a.fan? s).getD ∅).insert (· ∪ ·) i {t}) else a.fan? u := by
  rw [fan?, addTransition, Std.ExtTreeMap.getElem?_insert]
  by_cases hu : u = s
  · rw [if_pos hu, if_pos (StateSet.compare_eq_iff.2 hu)]
  · rw [if_neg hu, if_neg (mt StateSet.compare_eq_iff.1 hu)]
    rfl

theorem TidyFrom.addTransition {n : Nat} (h : a.TidyFrom n) (s : Nat) (i : Interval) (t : Nat) :
    (a.addTransition s i t).TidyFrom n := by
  intro u hn
  rw [fan?_addTransition]
  by_cases hu : u = s
  · rw [if_pos hu]
    exact IntervalMap.ordered_insert _ (h s (hu ▸ hn)) i {t}
  · rw [if_neg hu]
    exact h u hn

theorem tidy_addTransition (h : a.Tidy) (s : Nat) (i : Interval) (t : Nat) :
    (a.addTransition s i t).Tidy :=
  fun u => (h.tidyFrom 0).addTransition s i t u (Nat.zero_le u)

/-- A new transition adds the steps on its characters. -/
theorem reads_addTransition (h : a.Tidy) (s : Nat) (i : Interval) (t u : Nat) (c : Char)
    (v : Nat) : (a.addTransition s i t).Reads u c v ↔
      a.Reads u c v ∨ (u = s ∧ c ∈ i ∧ v = t) := by
  unfold Reads
  rw [fan?_addTransition]
  by_cases hu : u = s
  · rw [if_pos hu, Option.getD_some, Fan.leads_insert (h s), StateSet.mem_singleton, hu]
    simp
  · rw [if_neg hu]
    simp [hu]

/-- A new silent transition adds one silent step. -/
@[simp] theorem mem_silentFrom_addSilent (a : Nfa) (s t u v : Nat) :
    v ∈ (a.addSilent s t).silentFrom u ↔ v ∈ a.silentFrom u ∨ (u = s ∧ v = t) := by
  rw [silentFrom, addSilent, Std.ExtTreeMap.getElem?_insert]
  by_cases hu : u = s
  · rw [if_pos (StateSet.compare_eq_iff.2 hu), Option.getD_some, StateSet.mem_insert, hu]
    simp [or_comm]
  · rw [if_neg (mt StateSet.compare_eq_iff.1 hu)]
    simp [hu, silentFrom]

@[simp] theorem isAccepting_addAccepting (a : Nfa) (s t : Nat) :
    (a.addAccepting s).isAccepting t = true ↔ t = s ∨ a.isAccepting t = true := by
  rw [isAccepting, addAccepting, Std.ExtTreeSet.contains_iff_mem, StateSet.mem_insert,
    isAccepting, Std.ExtTreeSet.contains_iff_mem]

theorem tidy_of_fans_eq (h : a.Tidy) (heq : b.fans = a.fans) : b.Tidy := by
  intro s
  rw [fan?, heq]
  exact h s

theorem reads_of_fans_eq (heq : b.fans = a.fans) : b.Reads s c t ↔ a.Reads s c t := by
  rw [Reads, Reads, fan?, fan?, heq]

@[simp] theorem fans_connectAll (a : Nfa) (sources : List Nat) (target : Nat) :
    (a.connectAll sources target).fans = a.fans := by
  induction sources generalizing a with
  | nil => rfl
  | cons s sources ih => exact ih (a.addSilent s target)

@[simp] theorem mem_silentFrom_connectAll (a : Nfa) (sources : List Nat) (target s t : Nat) :
    t ∈ (a.connectAll sources target).silentFrom s ↔
      t ∈ a.silentFrom s ∨ (s ∈ sources ∧ t = target) := by
  induction sources generalizing a with
  | nil => simp [connectAll]
  | cons u sources ih =>
      rw [connectAll, List.foldl_cons, ← connectAll, ih, mem_silentFrom_addSilent,
        List.mem_cons]
      tauto

theorem connectAll_frame (a : Nfa) (sources : List Nat) (target : Nat) :
    (a.connectAll sources target).last = a.last ∧
    (a.connectAll sources target).start = a.start ∧
    (a.connectAll sources target).accepting = a.accepting := by
  induction sources generalizing a with
  | nil => exact ⟨rfl, rfl, rfl⟩
  | cons s sources ih => exact ih (a.addSilent s target)

@[simp] theorem isAccepting_acceptAll (a : Nfa) (states : List Nat) (s : Nat) :
    (a.acceptAll states).isAccepting s = true ↔ s ∈ states ∨ a.isAccepting s = true := by
  induction states generalizing a with
  | nil => simp [acceptAll]
  | cons t states ih =>
      rw [acceptAll, List.foldl_cons, ← acceptAll, ih, isAccepting_addAccepting,
        List.mem_cons]
      tauto

theorem acceptAll_frame (a : Nfa) (states : List Nat) :
    (a.acceptAll states).last = a.last ∧ (a.acceptAll states).start = a.start ∧
    (a.acceptAll states).fans = a.fans ∧ (a.acceptAll states).silent = a.silent := by
  induction states generalizing a with
  | nil => exact ⟨rfl, rfl, rfl, rfl⟩
  | cons s states ih => exact ih (a.addAccepting s)

/-! ## Copies -/

/-- The automata agree in all but the transitions on characters. -/
structure SameFrame (a b : Nfa) : Prop where
  last : b.last = a.last
  start : b.start = a.start
  accepting : b.accepting = a.accepting
  silent : b.silent = a.silent

theorem SameFrame.trans {e : Nfa} (h : SameFrame a b) (h' : SameFrame b e) : SameFrame a e where
  last := h'.last.trans h.last
  start := h'.start.trans h.start
  accepting := h'.accepting.trans h.accepting
  silent := h'.silent.trans h.silent

theorem sameFrame_addRow (a : Nfa) (offset s : Nat) (row : Row) :
    SameFrame a (a.addRow offset s row) := by
  induction row generalizing a with
  | nil => exact ⟨rfl, rfl, rfl, rfl⟩
  | cons t row ih =>
      have h : SameFrame a (a.addTransition s t.on (offset + t.target)) := ⟨rfl, rfl, rfl, rfl⟩
      exact h.trans (ih _)

theorem TidyFrom.addRow {n : Nat} (h : a.TidyFrom n) (offset s : Nat) (row : Row) :
    (a.addRow offset s row).TidyFrom n := by
  induction row generalizing a with
  | nil => exact h
  | cons t row ih => exact ih (h.addTransition s t.on (offset + t.target))

/-- Adds the rows of some states of an automaton, all states moved up by `offset`. -/
def addRows (a : Nfa) (d : Dfa) (offset : Nat) (states : List Nat) : Nfa :=
  states.foldl (fun a s => a.addRow offset (offset + s) (d.row s)) a

theorem sameFrame_addRows (a : Nfa) (d : Dfa) (offset : Nat) (states : List Nat) :
    SameFrame a (a.addRows d offset states) := by
  induction states generalizing a with
  | nil => exact ⟨rfl, rfl, rfl, rfl⟩
  | cons s states ih => exact (sameFrame_addRow a _ _ _).trans (ih _)

theorem addRow_spec (h : a.Tidy) (offset s : Nat) (row : Row) :
    (a.addRow offset s row).Tidy ∧
    ∀ u c v, (a.addRow offset s row).Reads u c v ↔
      a.Reads u c v ∨ (u = s ∧ ∃ t ∈ row, c ∈ t.on ∧ v = offset + t.target) := by
  induction row generalizing a with
  | nil => exact ⟨h, by simp [addRow]⟩
  | cons t row ih =>
      have hstep := tidy_addTransition h s t.on (offset + t.target)
      obtain ⟨htidy, hreads⟩ := ih hstep
      rw [addRow, List.foldl_cons, ← addRow]
      refine ⟨htidy, ?_⟩
      intro u c v
      rw [hreads, reads_addTransition h]
      simp only [List.mem_cons, exists_eq_or_imp]
      tauto

theorem addRows_spec (h : a.Tidy) (d : Dfa) (offset : Nat) (states : List Nat) :
    (a.addRows d offset states).Tidy ∧
    ∀ u c v, (a.addRows d offset states).Reads u c v ↔ a.Reads u c v ∨
      ∃ s ∈ states, u = offset + s ∧ ∃ t ∈ d.row s, c ∈ t.on ∧ v = offset + t.target := by
  induction states generalizing a with
  | nil => exact ⟨h, by simp [addRows]⟩
  | cons s states ih =>
      obtain ⟨htidy, hreads⟩ := addRow_spec h offset (offset + s) (d.row s)
      obtain ⟨htidy', hreads'⟩ := ih htidy
      refine ⟨htidy', ?_⟩
      intro u c v
      rw [addRows, List.foldl_cons, ← addRows, hreads', hreads]
      simp only [List.mem_cons, exists_eq_or_imp]
      exact or_assoc

/-- What a state leads to after some rows are added depends on what it led to before. -/
theorem fan?_addRow_congr (h : a.fan? u = b.fan? u) (offset s : Nat) (row : Row) :
    (a.addRow offset s row).fan? u = (b.addRow offset s row).fan? u := by
  induction row generalizing a b with
  | nil => exact h
  | cons t row ih =>
      refine ih ?_
      rw [fan?_addTransition, fan?_addTransition]
      by_cases hu : u = s
      · rw [if_pos hu, if_pos hu, ← hu, h]
      · rw [if_neg hu, if_neg hu, h]

theorem fan?_addRows_congr (h : a.fan? u = b.fan? u) (d : Dfa) (offset : Nat)
    (states : List Nat) :
    (a.addRows d offset states).fan? u = (b.addRows d offset states).fan? u := by
  induction states generalizing a b with
  | nil => exact h
  | cons s states ih => exact ih (fan?_addRow_congr h offset (offset + s) (d.row s))

/-- Only the state that a row is added to gets new transitions. -/
theorem fan?_addRow_of_ne (a : Nfa) (offset : Nat) (row : Row) (h : u ≠ s) :
    (a.addRow offset s row).fan? u = a.fan? u := by
  induction row generalizing a with
  | nil => rfl
  | cons t row ih =>
      refine (ih _).trans ?_
      rw [fan?_addTransition, if_neg h]

theorem fan?_addRows_of_ne (a : Nfa) (d : Dfa) (offset : Nat) {states : List Nat}
    (h : ∀ s ∈ states, u ≠ offset + s) : (a.addRows d offset states).fan? u = a.fan? u := by
  induction states generalizing a with
  | nil => rfl
  | cons s states ih =>
      refine (ih _ fun t ht => h t (List.mem_cons_of_mem s ht)).trans ?_
      exact fan?_addRow_of_ne a offset (d.row s) (h s List.mem_cons_self)

/-- What a copy adds: fresh states with the steps of the automaton copied, and nothing
else. -/
structure Embedded (a : Nfa) (d : Dfa) (b : Nfa) : Prop where
  tidy : b.Tidy
  last : b.last = a.last + d.size
  start : b.start = a.start
  accepting : b.accepting = a.accepting
  silent : b.silent = a.silent
  reads : ∀ u c v, b.Reads u c v ↔ a.Reads u c v ∨
    ∃ s t, d.step? s c = some t ∧ u = a.last + 1 + s ∧ v = a.last + 1 + t

theorem lt_size_of_step? {d : Dfa} (h : d.step? s c = some t) : s < d.size := by
  by_cases hs : s < d.size
  · exact hs
  · rw [Dfa.step?, Dfa.row_eq_nil (Nat.le_of_not_lt hs)] at h
    cases h

theorem embedded_embed (h : a.Tidy) {d : Dfa} (hd : d.WellFormed) :
    Embedded a d (a.embed d).2 := by
  have hgrown : Tidy { a with last := a.last + d.size } := tidy_of_fans_eq h rfl
  have hframe := sameFrame_addRows { a with last := a.last + d.size } d (a.last + 1)
    (List.range d.size)
  obtain ⟨htidy, hreads⟩ := addRows_spec hgrown d (a.last + 1) (List.range d.size)
  refine
    { tidy := htidy
      last := hframe.last
      start := hframe.start
      accepting := hframe.accepting
      silent := hframe.silent
      reads := ?_ }
  intro u c v
  refine (hreads u c v).trans (or_congr (reads_of_fans_eq rfl) ?_)
  constructor
  · intro hs
    obtain ⟨s, -, hu, t, ht, hc, hv⟩ := hs
    exact ⟨s, t.target, (Row.step?_eq_some_iff (hd.ordered_row s)).2 ⟨t, ht, hc, rfl⟩, hu, hv⟩
  · intro hs
    obtain ⟨s, t, hstep, hu, hv⟩ := hs
    obtain ⟨t', ht', hc, rfl⟩ := Row.exists_mem_of_step? hstep
    exact ⟨s, List.mem_range.2 (lt_size_of_step? hstep), hu, t', ht', hc, hv⟩

theorem mem_accepting_embed {d : Dfa} :
    s ∈ (a.embed d).1.accepting ↔ ∃ t, d.isAccepting t = true ∧ s = a.last + 1 + t := by
  rw [embed, List.mem_map]
  constructor
  · intro hs
    obtain ⟨t, ht, rfl⟩ := hs
    exact ⟨t, (List.mem_filter.1 ht).2, rfl⟩
  · intro ht
    obtain ⟨t, ht, rfl⟩ := ht
    exact ⟨t, List.mem_filter.2 ⟨List.mem_range.2 (Dfa.lt_size_of_isAccepting ht), ht⟩, rfl⟩

/-! ## Paths -/

theorem Path.of_reads (h : a.Reads s c t) (hpath : Path a t w u) : Path a s (c :: w) u := by
  obtain ⟨fan, targets, hfan, hfind, ht⟩ := reads_iff.1 h
  exact .read hfan hfind ht hpath

theorem path_append (h : Path a s v t) (hpath : Path a t w u) : Path a s (v ++ w) u := by
  induction h with
  | nil => exact hpath
  | silent hstep _ ih => exact .silent hstep (ih hpath)
  | read hfan hfind ht _ ih => exact .read hfan hfind ht (ih hpath)

/-- The first character is read after some silent steps. -/
theorem path_cons_iff :
    Path a s (c :: w) u ↔ ∃ s' t, Path a s [] s' ∧ a.Reads s' c t ∧ Path a t w u := by
  constructor
  · intro h
    generalize hcw : c :: w = cw at h
    induction h with
    | nil => cases hcw
    | silent hstep _ ih =>
        obtain ⟨s', t, hsilent, hreads, hpath⟩ := ih hcw
        exact ⟨s', t, .silent hstep hsilent, hreads, hpath⟩
    | read hfan hfind ht hpath _ =>
        cases hcw
        exact ⟨_, _, .nil _, reads_iff.2 ⟨_, _, hfan, hfind, ht⟩, hpath⟩
  · intro h
    obtain ⟨s', t, hsilent, hreads, hpath⟩ := h
    exact path_append hsilent (.of_reads hreads hpath)

/-- If all steps from a set of states are steps of another automaton and do not leave the
set, so it is with paths. -/
theorem Path.transfer {P : Nat → Prop}
    (hsilent : ∀ s, P s → ∀ t ∈ a.silentFrom s, t ∈ b.silentFrom s ∧ P t)
    (hreads : ∀ s, P s → ∀ c t, a.Reads s c t → b.Reads s c t ∧ P t) (hs : P s)
    (h : Path a s w t) : Path b s w t := by
  induction h with
  | nil => exact .nil _
  | silent hstep _ ih =>
      obtain ⟨hstep', ht⟩ := hsilent _ hs _ hstep
      exact .silent hstep' (ih ht)
  | read hfan hfind ht _ ih =>
      obtain ⟨hread, ht⟩ := hreads _ hs _ _ (reads_iff.2 ⟨_, _, hfan, hfind, ht⟩)
      exact .of_reads hread (ih ht)

/-- A path is one of any automaton that has all the steps. -/
theorem Path.mono (hsilent : ∀ s, ∀ t ∈ a.silentFrom s, t ∈ b.silentFrom s)
    (hreads : ∀ s c t, a.Reads s c t → b.Reads s c t) (h : Path a s w t) : Path b s w t :=
  h.transfer (P := fun _ => True) (fun s _ t ht => ⟨hsilent s t ht, trivial⟩)
    (fun s _ c t ht => ⟨hreads s c t ht, trivial⟩) trivial

theorem silentFrom_of_silent_eq (h : b.silent = a.silent) (s : Nat) :
    b.silentFrom s = a.silentFrom s := by
  rw [silentFrom, silentFrom, h]

/-- A run of the copied automaton is a path within the copy. -/
theorem path_of_stepAll? {d : Dfa} {offset : Nat}
    (hreads : ∀ s c t, d.step? s c = some t → a.Reads (offset + s) c (offset + t))
    (hrun : d.stepAll? s w = some t) : Path a (offset + s) w (offset + t) := by
  induction w generalizing s with
  | nil =>
      cases hrun
      exact .nil _
  | cons c w ih =>
      rw [Dfa.stepAll?_cons, Option.bind_eq_some_iff] at hrun
      obtain ⟨m, hstep, hrun⟩ := hrun
      exact .of_reads (hreads s c m hstep) (ih hrun)

/-- If the steps from the copied states are those of the automaton, its runs are the paths
from there. -/
theorem path_copy_iff {d : Dfa} {offset : Nat} (hsilent : ∀ s t, t ∉ a.silentFrom (offset + s))
    (hreads : ∀ s c v, a.Reads (offset + s) c v ↔ ∃ t, d.step? s c = some t ∧ v = offset + t) :
    Path a (offset + s) w u ↔ ∃ t, d.stepAll? s w = some t ∧ u = offset + t := by
  constructor
  · intro hpath
    generalize hs : offset + s = s' at hpath
    induction hpath generalizing s with
    | nil => exact ⟨s, rfl, hs.symm⟩
    | silent hstep _ _ =>
        subst hs
        exact absurd hstep (hsilent s _)
    | read hfan hfind ht _ ih =>
        subst hs
        obtain ⟨m, hstep, hm⟩ := (hreads s _ _).1 (reads_iff.2 ⟨_, _, hfan, hfind, ht⟩)
        obtain ⟨t, hrun, hu⟩ := ih hm.symm
        exact ⟨t, by rw [Dfa.stepAll?_cons, hstep]; exact hrun, hu⟩
  · rintro ⟨t, hrun, rfl⟩
    exact path_of_stepAll? (fun s c t hstep => (hreads s c _).2 ⟨t, hstep, rfl⟩) hrun

end Nfa

end PatternAutomata
