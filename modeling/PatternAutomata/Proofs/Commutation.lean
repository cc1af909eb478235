import PatternAutomata.Proofs.Cuts
import PatternAutomata.Proofs.SubsetConstruction

/-!
# The order in which an automaton is put together

States that accept, silent transitions and transitions on characters may be added in any
order and more than once: what comes out is the same automaton, down to the intervals at
which the transitions of a state are split. So it is the same after determinization, with
the same numbers for the states.

That two steps commute, and that a step repeated changes nothing, is enough for lists of
steps of any length (`Commuting.foldl_eq_of_mem_iff`). For transitions on characters it comes
down to insertions into maps, which commute because the cuts do.

## Main results

* `Nfa.commuting_edit`: two steps.
* `Nfa.additions_unordered`: steps in any order, repeated or not.
-/

namespace PatternAutomata

/-! ## Steps that commute -/

section Steps

variable {β : Type u} {ε : Type v} {P : β → Prop} {S : ε → Prop} {f : β → ε → β} {b : β}
  {d : ε} {xs ys : List ε}

/-- Steps of a kind that keep an invariant, under which they commute and change nothing
when they are repeated. -/
structure Commuting (P : β → Prop) (S : ε → Prop) (f : β → ε → β) : Prop where
  keeps : ∀ {b}, P b → ∀ {e}, S e → P (f b e)
  comm : ∀ {b}, P b → ∀ {d e}, S d → S e → f (f b d) e = f (f b e) d
  self : ∀ {b}, P b → ∀ {e}, S e → f (f b e) e = f b e

namespace Commuting

/-- A step may be made before or after others. -/
theorem foldl_step (h : Commuting P S f) (hb : P b) (hxs : ∀ e ∈ xs, S e) (hd : S d) :
    xs.foldl f (f b d) = f (xs.foldl f b) d := by
  induction xs generalizing b with
  | nil => rfl
  | cons e xs ih =>
    obtain ⟨he, hxs⟩ := List.forall_mem_cons.1 hxs
    rw [List.foldl_cons, h.comm hb hd he, ih (h.keeps hb he) hxs, List.foldl_cons]

theorem foldl_comm (h : Commuting P S f) (hb : P b) (hxs : ∀ e ∈ xs, S e)
    (hys : ∀ e ∈ ys, S e) : ys.foldl f (xs.foldl f b) = xs.foldl f (ys.foldl f b) := by
  induction ys generalizing b with
  | nil => rfl
  | cons d ys ih =>
    obtain ⟨hd, hys⟩ := List.forall_mem_cons.1 hys
    rw [List.foldl_cons, ← h.foldl_step hb hxs hd, ih (h.keeps hb hd) hys, List.foldl_cons]

/-- A step that was made changes nothing. -/
theorem step_foldl (h : Commuting P S f) (hb : P b) (hxs : ∀ e ∈ xs, S e) (hd : d ∈ xs) :
    f (xs.foldl f b) d = xs.foldl f b := by
  induction xs generalizing b with
  | nil => cases hd
  | cons e xs ih =>
    obtain ⟨he, hlater⟩ := List.forall_mem_cons.1 hxs
    rw [List.foldl_cons]
    rcases List.mem_cons.1 hd with rfl | hd
    · rw [← h.foldl_step (h.keeps hb he) hlater he, h.self hb he]
    · exact ih (h.keeps hb he) hlater hd

theorem foldl_foldl (h : Commuting P S f) (hb : P b) (hxs : ∀ e ∈ xs, S e) (hys : ys ⊆ xs) :
    ys.foldl f (xs.foldl f b) = xs.foldl f b := by
  induction ys with
  | nil => rfl
  | cons d ys ih =>
    obtain ⟨hd, hys⟩ := List.cons_subset.1 hys
    rw [List.foldl_cons, h.step_foldl hb hxs hd, ih hys]

/-- The same steps lead to the same, in whatever order and however often they are made. -/
theorem foldl_eq_of_mem_iff (h : Commuting P S f) (hb : P b) (hxs : ∀ e ∈ xs, S e)
    (hmem : ∀ e, e ∈ xs ↔ e ∈ ys) : xs.foldl f b = ys.foldl f b := by
  have hys : ∀ e ∈ ys, S e := fun e he => hxs e ((hmem e).2 he)
  calc xs.foldl f b
      = ys.foldl f (xs.foldl f b) := (h.foldl_foldl hb hxs fun e he => (hmem e).2 he).symm
    _ = xs.foldl f (ys.foldl f b) := h.foldl_comm hb hxs hys
    _ = ys.foldl f b := h.foldl_foldl hb hys fun e he => (hmem e).1 he

end Commuting

end Steps

/-! ## Sets of states -/

namespace StateSet

theorem insert_right_comm (states : StateSet) (s t : Nat) :
    (states.insert s).insert t = (states.insert t).insert s := by
  refine Std.ExtTreeSet.ext_mem fun u => ?_
  rw [mem_insert, mem_insert, mem_insert, mem_insert]
  exact or_left_comm

theorem insert_insert_self (states : StateSet) (s : Nat) :
    (states.insert s).insert s = states.insert s := by
  refine Std.ExtTreeSet.ext_mem fun u => ?_
  simp

theorem union_comm (states states' : StateSet) : states ∪ states' = states' ∪ states := by
  refine Std.ExtTreeSet.ext_mem fun u => ?_
  rw [Std.ExtTreeSet.mem_union_iff, Std.ExtTreeSet.mem_union_iff, or_comm]

theorem union_right_comm (old states states' : StateSet) :
    old ∪ states ∪ states' = old ∪ states' ∪ states := by
  refine Std.ExtTreeSet.ext_mem fun u => ?_
  simp only [Std.ExtTreeSet.mem_union_iff]
  exact or_right_comm

theorem union_self (states : StateSet) : states ∪ states = states := by
  refine Std.ExtTreeSet.ext_mem fun u => ?_
  rw [Std.ExtTreeSet.mem_union_iff, or_self]

theorem union_union_self (old states : StateSet) : old ∪ states ∪ states = old ∪ states := by
  refine Std.ExtTreeSet.ext_mem fun u => ?_
  simp only [Std.ExtTreeSet.mem_union_iff, or_assoc, or_self]

end StateSet

/-! ## Tables of what is known of a state -/

section Revision

variable {γ : Type u} (table : Std.ExtTreeMap Nat γ compare) (unset : γ) {s t : Nat}
  (g g' : γ → γ)

/-- Changes the entry of a state; a state without one has `unset`. -/
def revise (table : Std.ExtTreeMap Nat γ compare) (unset : γ) (s : Nat) (g : γ → γ) :
    Std.ExtTreeMap Nat γ compare :=
  table.insert s (g (table[s]?.getD unset))

theorem getElem?_revise : (revise table unset s g)[t]? =
    if t = s then some (g (table[s]?.getD unset)) else table[t]? := by
  rw [revise, Std.ExtTreeMap.getElem?_insert]
  by_cases ht : t = s
  · rw [if_pos ht, if_pos (StateSet.compare_eq_iff.2 ht)]
  · rw [if_neg ht, if_neg (mt StateSet.compare_eq_iff.1 ht)]

/-- Changes of entries commute if they do on the entry of one state. -/
theorem revise_right_comm
    (h : s = t → g' (g (table[s]?.getD unset)) = g (g' (table[s]?.getD unset))) :
    revise (revise table unset s g) unset t g' = revise (revise table unset t g') unset s g := by
  refine Std.ExtTreeMap.ext_getElem? fun k => ?_
  by_cases hst : s = t
  · subst hst
    simp only [getElem?_revise, if_true, Option.getD_some, h rfl]
    by_cases hk : k = s
    · simp only [if_pos hk]
    · simp only [if_neg hk]
  · simp only [getElem?_revise, if_neg hst, if_neg (Ne.symm hst)]
    by_cases hk : k = s
    · have hkt : k ≠ t := hk ▸ hst
      simp only [if_pos hk, if_neg hkt]
    · simp only [if_neg hk]

theorem revise_self (h : g (g (table[s]?.getD unset)) = g (table[s]?.getD unset)) :
    revise (revise table unset s g) unset s g = revise table unset s g := by
  refine Std.ExtTreeMap.ext_getElem? fun k => ?_
  simp only [getElem?_revise, if_true, Option.getD_some, h]
  by_cases hk : k = s
  · simp only [if_pos hk]
  · simp only [if_neg hk]

end Revision

namespace Nfa

variable {a : Nfa}

/-! ## Two steps -/

theorem addAccepting_right_comm (a : Nfa) (s t : Nat) :
    (a.addAccepting s).addAccepting t = (a.addAccepting t).addAccepting s := by
  simp only [addAccepting, StateSet.insert_right_comm a.accepting s t]

theorem addAccepting_self (a : Nfa) (s : Nat) :
    (a.addAccepting s).addAccepting s = a.addAccepting s := by
  simp only [addAccepting, StateSet.insert_insert_self]

theorem addSilent_eq (a : Nfa) (s t : Nat) : a.addSilent s t =
    { a with silent := revise a.silent ∅ s fun targets => targets.insert t } := rfl

theorem addSilent_right_comm (a : Nfa) (s t u v : Nat) :
    (a.addSilent s t).addSilent u v = (a.addSilent u v).addSilent s t := by
  have hcomm := revise_right_comm a.silent ∅ (s := s) (t := u) (fun targets => targets.insert t)
    (fun targets => targets.insert v) fun _ => StateSet.insert_right_comm _ t v
  simp only [addSilent_eq, hcomm]

theorem addSilent_self (a : Nfa) (s t : Nat) :
    (a.addSilent s t).addSilent s t = a.addSilent s t := by
  have hself := revise_self a.silent ∅ (s := s) (fun targets => targets.insert t)
    (StateSet.insert_insert_self _ t)
  simp only [addSilent_eq, hself]

theorem addTransition_eq (a : Nfa) (s : Nat) (i : Interval) (t : Nat) :
    a.addTransition s i t =
      { a with fans := revise a.fans ∅ s fun fan => fan.insert (· ∪ ·) i {t} } := rfl

theorem addTransition_right_comm (h : a.Tidy) (s : Nat) (i : Interval) (t u : Nat)
    (j : Interval) (v : Nat) :
    (a.addTransition s i t).addTransition u j v = (a.addTransition u j v).addTransition s i t := by
  have hcomm := revise_right_comm a.fans ∅ (s := s) (t := u)
    (fun fan => fan.insert (· ∪ ·) i {t}) (fun fan => fan.insert (· ∪ ·) j {v})
    fun _ => IntervalMap.insert_right_comm StateSet.union_comm StateSet.union_right_comm
      (h s) i j {t} {v}
  simp only [addTransition_eq, hcomm]

theorem addTransition_self (h : a.Tidy) (s : Nat) (i : Interval) (t : Nat) :
    (a.addTransition s i t).addTransition s i t = a.addTransition s i t := by
  have hself := revise_self a.fans ∅ (s := s) (fun fan => fan.insert (· ∪ ·) i {t})
    (IntervalMap.insert_insert_self StateSet.union_self StateSet.union_union_self (h s) i {t})
  simp only [addTransition_eq, hself]

/-- The step adds an accepting state or a transition. -/
def Edit.IsAddition : Edit → Prop
  | .addAccepting _ | .addSilent _ _ | .addTransition _ _ _ => True
  | .fresh | .setStart _ | .embed _ => False

theorem Tidy.edit_addition (h : a.Tidy) {e : Edit} (he : e.IsAddition) : (a.edit e).Tidy := by
  cases e with
  | addAccepting s => exact tidy_of_fans_eq h rfl
  | addSilent s t => exact tidy_of_fans_eq h rfl
  | addTransition s i t => exact tidy_addTransition h s i t
  | fresh | setStart | embed => exact he.elim

theorem edit_right_comm (h : a.Tidy) {d e : Edit} (hd : d.IsAddition) (he : e.IsAddition) :
    (a.edit d).edit e = (a.edit e).edit d := by
  -- Steps of two kinds change different parts of the automaton.
  cases d with
  | addAccepting s =>
    cases e with
    | addAccepting t => exact addAccepting_right_comm a s t
    | addSilent | addTransition => rfl
    | fresh | setStart | embed => exact he.elim
  | addSilent s t =>
    cases e with
    | addSilent u v => exact addSilent_right_comm a s t u v
    | addAccepting | addTransition => rfl
    | fresh | setStart | embed => exact he.elim
  | addTransition s i t =>
    cases e with
    | addTransition u j v => exact addTransition_right_comm h s i t u j v
    | addAccepting | addSilent => rfl
    | fresh | setStart | embed => exact he.elim
  | fresh | setStart | embed => exact hd.elim

theorem edit_self (h : a.Tidy) {e : Edit} (he : e.IsAddition) :
    (a.edit e).edit e = a.edit e := by
  cases e with
  | addAccepting s => exact addAccepting_self a s
  | addSilent s t => exact addSilent_self a s t
  | addTransition s i t => exact addTransition_self h s i t
  | fresh | setStart | embed => exact he.elim

/-- On automata whose transitions are in order, additions commute. -/
theorem commuting_edit : Commuting Tidy Edit.IsAddition edit where
  keeps h _ he := h.edit_addition he
  comm h _ _ hd he := edit_right_comm h hd he
  self h _ he := edit_self h he

/-! ## Any number of steps -/

/-- Additions never fail, in whatever order they are made. -/
theorem foldlM_additions (h : a.Tidy) {edits : List Edit} (hedits : ∀ e ∈ edits, e.IsAddition) :
    edits.foldlM Checked.edit a = pure (edits.foldl edit a) ∧ (edits.foldl edit a).Tidy := by
  refine Checked.foldlM_eq (fun b hb e he => ?_) h
  have hembed : ∀ d, e = .embed d → d.WellFormed := by
    rintro d rfl
    exact (hedits _ he).elim
  exact ⟨Checked.edit_eq hb hembed, hb.edit_addition (hedits e he)⟩

/-- However a nondeterministic automaton was put together so far, any accepting states,
silent transitions and transitions on characters may then be added in any order, and some
of them repeatedly: the automaton is the same, and so is the deterministic one for it. -/
theorem additions_unordered (before : List Edit) {xs ys : List Edit}
    (hxs : ∀ e ∈ xs, e.IsAddition) (hmem : ∀ e, e ∈ xs ↔ e ∈ ys) :
    let a := before.foldl edit .empty
    let b := xs.foldl edit a
    xs.foldlM Checked.edit a = pure b ∧ ys.foldlM Checked.edit a = pure b ∧
      Checked.determinize b = pure b.determinize := by
  intro a b
  have htidy : a.Tidy := (live_edits before).tidy
  have hys : ∀ e ∈ ys, e.IsAddition := fun e he => hxs e ((hmem e).2 he)
  obtain ⟨hrun, hb⟩ := foldlM_additions htidy hxs
  refine ⟨hrun, ?_, Checked.determinize_eq hb⟩
  rw [(foldlM_additions htidy hys).1, ← commuting_edit.foldl_eq_of_mem_iff htidy hxs hmem]

/-- The second list has the transitions of the first in another order, one of them twice.
The intervals are split in three either way. -/
theorem additions_unordered_overlapping :
    let lower : Edit := .addTransition 0 ⟨'a', 'f', by decide⟩ 1
    let upper : Edit := .addTransition 0 ⟨'d', 'k', by decide⟩ 2
    let xs : List Edit := [lower, upper, .addSilent 1 0, .addAccepting 2]
    let ys : List Edit := [.addAccepting 2, upper, .addSilent 1 0, lower, upper]
    (∀ e ∈ xs, e.IsAddition) ∧ (∀ e, e ∈ xs ↔ e ∈ ys) ∧
    ∃ b, ys.foldlM Checked.edit ([.fresh, .fresh].foldl edit .empty) = pure b ∧
      ((b.fan? 0).getD ∅).entries.map (fun e => (e.1.lo, e.1.hi, e.2.toList)) =
        [('a', 'c', [1]), ('d', 'f', [1, 2]), ('g', 'k', [2])] ∧
      b.determinize.size = 4 := by
  intro lower upper xs ys
  have hxs : ∀ e ∈ xs, e.IsAddition := by
    intro e he
    simp only [xs, List.mem_cons, List.not_mem_nil, or_false] at he
    rcases he with rfl | rfl | rfl | rfl <;> trivial
  have hmem : ∀ e, e ∈ xs ↔ e ∈ ys := by
    intro e
    simp only [xs, ys, List.mem_cons, List.not_mem_nil, or_false]
    tauto
  obtain ⟨-, hys, -⟩ := additions_unordered [.fresh, .fresh] hxs hmem
  exact ⟨hxs, hmem, _, hys, by decide +kernel, by decide +kernel⟩

end Nfa

end PatternAutomata
