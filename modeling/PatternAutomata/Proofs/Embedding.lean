import PatternAutomata.Proofs.CheckedComposition

/-!
# Copies are apart from what was there before

An automaton mentions a state if it starts or accepts there, keeps transitions for it, or
leads to it (`Uses`). If all states that it mentions have been handed out (`Numbered`), a copy
of a deterministic automaton is on states that it does not mention. Rows are added to these
states only, so the others keep what is known of them (`Keeps`); and what a new state leads
to does not depend on the rest of the automaton, as if the copy were made in an empty one.
So no edge joins an old state to a new one (`Apart`), and the paths from a new state are the
runs of the automaton copied.

Afterwards the states mentioned have again been handed out. So a second copy is as well
apart from the first one.

## Main results

* `fan?_embed_old`, `fan?_embed_new`: the transitions of a state after a copy is made.
* `path_embed_iff`: the paths from the states of a copy.
* `embed_isolated`: copying as a whole.
-/

namespace PatternAutomata.Nfa

open PatternAutomata.Interval

/-! ## States in use -/

/-- A transition leads from a state to another, be it silent or not. -/
def Edge (a : Nfa) (s t : Nat) : Prop :=
  (∃ fan, a.fan? s = some fan ∧ ∃ e ∈ fan.entries, t ∈ e.2) ∨ t ∈ a.silentFrom s

/-- The automaton mentions a state. -/
inductive Uses (a : Nfa) : Nat → Prop where
  | start : Uses a a.start
  | accepting {s : Nat} : a.isAccepting s = true → Uses a s
  | fan {s : Nat} {fan : Fan} : a.fan? s = some fan → Uses a s
  | silent {s : Nat} {targets : StateSet} : a.silent[s]? = some targets → Uses a s
  | target {s t : Nat} : a.Edge s t → Uses a t

/-- Every state that the automaton mentions has been handed out. -/
def Numbered (a : Nfa) : Prop := ∀ s, a.Uses s → s ≤ a.last

variable {a : Nfa} {d : Dfa} {s t u : Nat} {c : Char} {w : List Char}

theorem Edge.of_reads (h : a.Reads s c t) : a.Edge s t := by
  obtain ⟨fan, targets, hfan, hfind, ht⟩ := reads_iff.1 h
  obtain ⟨e, he, rfl⟩ := Option.map_eq_some_iff.1 hfind
  exact Or.inl ⟨fan, hfan, e, List.mem_of_find?_eq_some he, ht⟩

theorem numbered_empty : empty.Numbered := by
  have hfan : ∀ s, empty.fan? s = none := fun _ => Std.ExtTreeMap.getElem?_empty
  have hedge : ∀ s t, ¬ empty.Edge s t := by
    intro s t hedge
    rw [Edge, hfan, silentFrom_empty] at hedge
    simp at hedge
  intro s huse
  cases huse with
  | start => exact Nat.le_refl 0
  | accepting haccept => exact absurd haccept (by simp [isAccepting, empty])
  | fan hsome =>
      rw [hfan] at hsome
      cases hsome
  | silent hsome =>
      rw [empty, Std.ExtTreeMap.getElem?_empty] at hsome
      cases hsome
  | target hstep => exact absurd hstep (hedge _ _)

/-- A silent transition between states that have been handed out. -/
theorem Numbered.addSilent (h : a.Numbered) (hs : s ≤ a.last) (ht : t ≤ a.last) :
    (a.addSilent s t).Numbered := by
  intro u huse
  cases huse with
  | start => exact h _ .start
  | accepting haccept => exact h u (.accepting haccept)
  | fan hfan => exact h u (.fan hfan)
  | silent hsilent =>
      rw [Nfa.addSilent, Std.ExtTreeMap.getElem?_insert] at hsilent
      by_cases hu : u = s
      · exact hu ▸ hs
      · rw [if_neg (mt StateSet.compare_eq_iff.1 hu)] at hsilent
        exact h u (.silent hsilent)
  | target hedge =>
      rcases hedge with hfan | hsilent
      · exact h u (.target (Or.inl hfan))
      · rcases (mem_silentFrom_addSilent a s t _ u).1 hsilent with hold | ⟨-, rfl⟩
        · exact h u (.target (Or.inr hold))
        · exact ht

/-! ## What a copy leaves as it was -/

/-- What the automaton `a` knows of its states is the same in `b`: the start, and for each
state the transitions, silent transitions and acceptance, and where words can lead. -/
structure Keeps (a b : Nfa) : Prop where
  start : b.start = a.start
  fan : ∀ s ≤ a.last, b.fan? s = a.fan? s
  silent : ∀ s ≤ a.last, b.silentFrom s = a.silentFrom s
  accepting : ∀ s ≤ a.last, b.isAccepting s = a.isAccepting s
  path : ∀ s ≤ a.last, ∀ w t, Path b s w t ↔ Path a s w t

/-- The states that `b` has beyond those of `a` are not in use in `a`, no edge of `b` joins
one of them to a state of `a`, and none accepts. -/
structure Apart (a b : Nfa) : Prop where
  unused : ∀ s, a.last < s → ¬ a.Uses s
  edge : ∀ s t, b.Edge s t → (a.last < s ↔ a.last < t)
  accepting : ∀ s, a.last < s → b.isAccepting s = false

theorem sameFrame_embed (a : Nfa) (d : Dfa) :
    SameFrame { a with last := a.last + d.size } (a.embed d).2 :=
  sameFrame_addRows _ d _ _

@[simp] theorem silentFrom_embed (a : Nfa) (d : Dfa) (s : Nat) :
    (a.embed d).2.silentFrom s = a.silentFrom s :=
  silentFrom_of_silent_eq (sameFrame_embed a d).silent s

@[simp] theorem isAccepting_embed (a : Nfa) (d : Dfa) (s : Nat) :
    (a.embed d).2.isAccepting s = a.isAccepting s := by
  rw [isAccepting, (sameFrame_embed a d).accepting]
  rfl

/-- A state that no copy is made on keeps its transitions. -/
theorem fan?_embed_old (a : Nfa) (d : Dfa) (h : s ≤ a.last ∨ a.last + d.size < s) :
    (a.embed d).2.fan? s = a.fan? s := by
  refine fan?_addRows_of_ne { a with last := a.last + d.size } d (a.last + 1) ?_
  intro m hm
  have := List.mem_range.1 hm
  omega

/-- The empty automaton, with as many states handed out. -/
def blank (a : Nfa) : Nfa := { empty with last := a.last }

theorem tidy_blank (a : Nfa) : a.blank.Tidy := tidy_of_fans_eq tidy_empty rfl

/-- A state without transitions gets those of a copy in the empty automaton. -/
theorem fan?_embed_new (d : Dfa) (h : a.fan? s = none) :
    (a.embed d).2.fan? s = (a.blank.embed d).2.fan? s := by
  refine fan?_addRows_congr ?_ d (a.last + 1) (List.range d.size)
  exact h.trans (show a.blank.fan? s = none from Std.ExtTreeMap.getElem?_empty).symm

namespace Numbered

variable (h : a.Numbered)
include h

theorem not_uses (hs : a.last < s) : ¬ a.Uses s := fun huse => absurd (h s huse) (by omega)

theorem fan?_eq_none (hs : a.last < s) : a.fan? s = none := by
  cases hfan : a.fan? s with
  | none => rfl
  | some fan => exact absurd (.fan hfan) (h.not_uses hs)

/-- A state that is not handed out has no transitions that could be out of order. -/
theorem tidyFrom : a.TidyFrom (a.last + 1) := fun s hs => by
  rw [h.fan?_eq_none hs]
  exact Fan.ordered_empty

theorem silentFrom_eq_empty (hs : a.last < s) : a.silentFrom s = ∅ := by
  rw [silentFrom]
  cases hsilent : a.silent[s]? with
  | none => rfl
  | some targets => exact absurd (.silent hsilent) (h.not_uses hs)

theorem isAccepting_eq_false (hs : a.last < s) : a.isAccepting s = false := by
  cases haccept : a.isAccepting s with
  | false => rfl
  | true => exact absurd (.accepting haccept) (h.not_uses hs)

theorem reads_embed_new (hd : d.WellFormed) (s : Nat) (c : Char) (v : Nat) :
    (a.embed d).2.Reads (a.last + 1 + s) c v ↔
      ∃ t, d.step? s c = some t ∧ v = a.last + 1 + t := by
  have hfan := fan?_embed_new d (h.fan?_eq_none (show a.last < a.last + 1 + s by omega))
  have hreads := (embedded_embed (tidy_blank a) hd).reads (a.last + 1 + s) c v
  rw [Reads, hfan, ← Reads, hreads]
  constructor
  · rintro (hold | ⟨s', t, hstep, hs, rfl⟩)
    · exact absurd ((reads_of_fans_eq rfl).1 hold) not_reads_empty
    · have hs' : s' = s := by
        have : a.blank.last = a.last := rfl
        omega
      subst hs'
      exact ⟨t, hstep, rfl⟩
  · rintro ⟨t, hstep, rfl⟩
    exact Or.inr ⟨s, t, hstep, rfl, rfl⟩

/-- The paths from a new state are the runs from the state that it is a copy of. -/
theorem path_embed_iff (hd : d.WellFormed) :
    Path (a.embed d).2 (a.last + 1 + s) w u ↔
      ∃ t, d.stepAll? s w = some t ∧ u = a.last + 1 + t := by
  refine path_copy_iff ?_ (h.reads_embed_new hd)
  intro s t hstep
  rw [silentFrom_embed, h.silentFrom_eq_empty (by omega)] at hstep
  exact Std.ExtTreeSet.not_mem_empty hstep

/-- An edge is an old one, or the copy of a step. -/
theorem edge_embed (hd : d.WellFormed) (hedge : (a.embed d).2.Edge s t) :
    (s ≤ a.last ∧ a.Edge s t) ∨
      ∃ s' c t', d.step? s' c = some t' ∧ s = a.last + 1 + s' ∧ t = a.last + 1 + t' := by
  by_cases hs : s ≤ a.last
  · rw [Edge, fan?_embed_old a d (Or.inl hs), silentFrom_embed] at hedge
    exact Or.inl ⟨hs, hedge⟩
  · have hlast : a.last < s := by omega
    rw [Edge, silentFrom_embed, h.silentFrom_eq_empty hlast] at hedge
    rcases hedge with ⟨fan, hfan, ⟨i, targets⟩, he, ht⟩ | hsilent
    · have hordered := (embedded_embed (tidy_blank a) hd).tidy s
      rw [← fan?_embed_new d (h.fan?_eq_none hlast), hfan, Option.getD_some] at hordered
      have hleads : fan.Leads i.lo t := (Fan.leads_iff hordered).2 ⟨_, he, i.lo_mem, ht⟩
      have hreads : (a.embed d).2.Reads s i.lo t := by
        rw [Reads, hfan]
        exact hleads
      obtain ⟨s', rfl⟩ := Nat.exists_eq_add_of_lt hlast
      rw [Nat.add_right_comm, h.reads_embed_new hd] at hreads
      obtain ⟨t', hstep, rfl⟩ := hreads
      exact Or.inr ⟨s', i.lo, t', hstep, by omega, rfl⟩
    · exact absurd hsilent Std.ExtTreeSet.not_mem_empty

/-- What is in use after a copy is made has been handed out, so another copy can be made. -/
theorem embed (hd : d.WellFormed) : (a.embed d).2.Numbered := by
  have hlast : (a.embed d).2.last = a.last + d.size := (sameFrame_embed a d).last
  have hgrow : ∀ {s}, a.Uses s → s ≤ (a.embed d).2.last := fun {s} huse => by
    have := h s huse
    omega
  intro s huse
  cases huse with
  | start =>
      rw [(sameFrame_embed a d).start]
      exact hgrow .start
  | accepting haccept =>
      rw [isAccepting_embed] at haccept
      exact hgrow (.accepting haccept)
  | fan hfan =>
      by_contra hs
      rw [fan?_embed_old a d (Or.inr (by omega))] at hfan
      exact hs (hgrow (.fan hfan))
  | silent hsilent =>
      rw [(sameFrame_embed a d).silent] at hsilent
      exact hgrow (.silent hsilent)
  | target hedge =>
      rcases h.edge_embed hd hedge with ⟨-, hold⟩ | ⟨s', c, t', hstep, -, rfl⟩
      · exact hgrow (.target hold)
      · have := hd.step?_lt hstep
        omega

theorem keeps_embed (d : Dfa) : Keeps a (a.embed d).2 where
  start := (sameFrame_embed a d).start
  fan := fun s hs => fan?_embed_old a d (Or.inl hs)
  silent := fun s _ => silentFrom_embed a d s
  accepting := fun s _ => isAccepting_embed a d s
  path := by
    have hreads : ∀ s ≤ a.last, ∀ c t, (a.embed d).2.Reads s c t ↔ a.Reads s c t :=
      fun s hs c t => by rw [Reads, Reads, fan?_embed_old a d (Or.inl hs)]
    intro s hs w t
    constructor
    · refine Path.transfer (P := (· ≤ a.last)) ?_ ?_ hs
      · intro s _ t ht
        rw [silentFrom_embed] at ht
        exact ⟨ht, h t (.target (Or.inr ht))⟩
      · intro s hs c t ht
        rw [hreads s hs] at ht
        exact ⟨ht, h t (.target (.of_reads ht))⟩
    · refine Path.transfer (P := (· ≤ a.last)) ?_ ?_ hs
      · intro s _ t ht
        rw [silentFrom_embed]
        exact ⟨ht, h t (.target (Or.inr ht))⟩
      · intro s hs c t ht
        exact ⟨(hreads s hs c t).2 ht, h t (.target (.of_reads ht))⟩

theorem apart_embed (hd : d.WellFormed) : Apart a (a.embed d).2 where
  unused := fun s => h.not_uses
  edge := fun s t hedge => by
    rcases h.edge_embed hd hedge with ⟨hs, hold⟩ | ⟨s', c, t', -, rfl, rfl⟩
    · have := h t (.target hold)
      omega
    · omega
  accepting := fun s hs => by rw [isAccepting_embed, h.isAccepting_eq_false hs]

/-- A word leads from the start of the copy to one of its ends if it is accepted. -/
theorem accepts_copy_iff (hd : d.WellFormed) :
    (∃ s ∈ (a.embed d).1.accepting, Path (a.embed d).2 (a.embed d).1.start w s) ↔
      d.accepts w = true := by
  rw [Dfa.accepts, Dfa.acceptsFrom_iff]
  constructor
  · rintro ⟨s, hs, hpath⟩
    obtain ⟨t, hrun, rfl⟩ := (h.path_embed_iff hd).1 hpath
    obtain ⟨t', ht', heq⟩ := mem_accepting_embed.1 hs
    obtain rfl : t' = t := by omega
    exact ⟨t', hrun, ht'⟩
  · rintro ⟨t, hrun, ht⟩
    exact ⟨_, mem_accepting_embed.2 ⟨t, ht, rfl⟩, (h.path_embed_iff hd).2 ⟨t, hrun, rfl⟩⟩

/-- A word leads nowhere from the start of the copy if the automaton gets stuck. -/
theorem stuck_copy_iff (hd : d.WellFormed) :
    (¬ ∃ s, Path (a.embed d).2 (a.embed d).1.start w s) ↔ d.stepAll? d.start w = none := by
  rw [Option.eq_none_iff_forall_ne_some]
  constructor
  · intro hstuck t hrun
    exact hstuck ⟨_, (h.path_embed_iff hd).2 ⟨t, hrun, rfl⟩⟩
  · rintro hnone ⟨s, hpath⟩
    obtain ⟨t, hrun, -⟩ := (h.path_embed_iff hd).1 hpath
    exact hnone t hrun

end Numbered

/-- The start and the ends of a copy are new states. -/
theorem new_of_copy (hd : d.WellFormed)
    (hs : s = (a.embed d).1.start ∨ s ∈ (a.embed d).1.accepting) :
    a.last < s ∧ s ≤ (a.embed d).2.last := by
  have hlast : (a.embed d).2.last = a.last + d.size := (sameFrame_embed a d).last
  rcases hs with rfl | hs
  · have hstart : (a.embed d).1.start = a.last + 1 + d.start := rfl
    have := hd.start_lt
    omega
  · obtain ⟨t, ht, rfl⟩ := mem_accepting_embed.1 hs
    have := Dfa.lt_size_of_isAccepting ht
    omega

/-- Whatever automaton is copied into one that mentions only states it has handed out, no
look for the copy of a state fails. The old states keep what is known of them, and the start
is the same. There are as many new states as were copied; they are apart from the old ones,
and the start and the ends of the copy are among them. A word leads from the start of the
copy to one of the ends exactly if the automaton accepts it, and nowhere exactly if the
automaton gets stuck; likewise, the paths from each new state are the runs from the state
that it is a copy of. -/
theorem embed_isolated (h : a.Numbered) (hd : d.WellFormed) :
    ∃ copy b, Checked.embed a d = pure (copy, b) ∧ a.embed d = (copy, b) ∧
      b.last = a.last + d.size ∧ b.Numbered ∧ Keeps a b ∧ Apart a b ∧
      (∀ s, s = copy.start ∨ s ∈ copy.accepting → a.last < s ∧ s ≤ b.last) ∧
      (∀ s w u, Path b (a.last + 1 + s) w u ↔
        ∃ t, d.stepAll? s w = some t ∧ u = a.last + 1 + t) ∧
      ∀ w, ((∃ s ∈ copy.accepting, Path b copy.start w s) ↔ d.accepts w = true) ∧
        ((¬ ∃ s, Path b copy.start w s) ↔ d.stepAll? d.start w = none) :=
  ⟨(a.embed d).1, (a.embed d).2, Checked.embed_eq h.tidyFrom hd, rfl, (sameFrame_embed a d).last,
    h.embed hd, h.keeps_embed d, h.apart_embed hd, fun _ => new_of_copy hd,
    fun _ _ _ => h.path_embed_iff hd, fun _ => ⟨h.accepts_copy_iff hd, h.stuck_copy_iff hd⟩⟩

/-- A copy behind the start of an automaton that holds one already: both are intact. -/
theorem embed_isolated_twice :
    let d := Dfa.splitRange
    let a := (empty.embed d).2.addSilent 0 1
    a.Numbered ∧ d.WellFormed ∧ ∃ b, Checked.embed a d = pure (⟨5, [6, 7]⟩, b) ∧
      Path b 0 ['b'] 2 ∧ Path b 5 ['c'] 7 ∧ ¬ ∃ s, Path b 5 ['d'] s := by
  intro d a
  have hd : d.WellFormed := ⟨by decide, by decide, by decide⟩
  have hlast : (empty.embed d).2.last = 4 := (sameFrame_embed empty d).last
  have h : a.Numbered := (numbered_empty.embed hd).addSilent (by omega) (by omega)
  obtain ⟨copy, b, hcopy, hembed, -, -, hkeeps, -, -, hpath, hwords⟩ := embed_isolated h hd
  replace hlast : a.last = 4 := hlast
  obtain rfl : copy = ⟨5, [6, 7]⟩ := by
    have hstates : (a.embed d).1 = ⟨a.last + 1 + 0, [a.last + 1 + 1, a.last + 1 + 2]⟩ := rfl
    rw [hembed, hlast] at hstates
    exact hstates
  rw [hlast] at hpath
  refine ⟨h, hd, b, hcopy, ?_, (hpath 0 _ _).2 ⟨2, by decide, rfl⟩, (hwords _).2.2 (by decide)⟩
  have hcopied : Path (empty.embed d).2 1 ['b'] 2 :=
    (numbered_empty.path_embed_iff (s := 0) hd).2 ⟨1, by decide, rfl⟩
  have hbehind : Path a 1 ['b'] 2 :=
    hcopied.mono (fun s t ht => (mem_silentFrom_addSilent _ 0 1 s t).2 (Or.inl ht))
      fun s c t => (reads_of_fans_eq rfl).2
  rw [hkeeps.path 0 (by omega)]
  exact .silent ((mem_silentFrom_addSilent _ 0 1 0 1).2 (Or.inr ⟨rfl, rfl⟩)) hbehind

end PatternAutomata.Nfa
