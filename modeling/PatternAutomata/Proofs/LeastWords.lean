import Mathlib.Data.List.Shortlex
import PatternAutomata.Proofs.BreadthFirst
import PatternAutomata.Proofs.Minimization

/-!
# The order of the states of a minimal automaton

The states of a minimal automaton are numbered breadth first, and the successors of a
state are looked at in the order of its row, that is, of the characters that lead to
them. So the numbers come from the words alone: each state has a least word that leads to
it, shorter words before longer ones and words of one length in the order of the
dictionary, and states are in the order of these words.

The main argument does not speak of least words. For each word that leads to a state it
finds a lesser one that leads to a given state of smaller number, by induction on the
word: its last step is an occurrence of the state among the successors of another, so the
state of smaller number is met before it, from a state of smaller number or from the same
state with a lesser character (`met_before`).

## Main results

* `exists_wordLt`: a word that leads to a state, and a lesser one for each state before it.
* `minimized_lt_iff_wordLt`: the states of a minimal automaton are in the order of their
  least words.
-/

namespace PatternAutomata

/-! ## The order of words -/

/-- The first word is shorter, or as long and before the other in the dictionary. -/
def WordLt (v w : List Char) : Prop := List.Shortlex (· < ·) v w

theorem wordLt_iff {v w : List Char} :
    WordLt v w ↔ v.length < w.length ∨ v.length = w.length ∧ List.Lex (· < ·) v w :=
  List.shortlex_def

theorem WordLt.trans {u v w : List Char} (huv : WordLt u v) (hvw : WordLt v w) :
    WordLt u w := by
  rw [wordLt_iff] at huv hvw ⊢
  rcases huv with huv | ⟨huv, hlex⟩
  · left
    omega
  · rcases hvw with hvw | ⟨hvw, hlex'⟩
    · left
      omega
    · exact Or.inr ⟨huv.trans hvw, List.lt_trans hlex hlex'⟩

theorem WordLt.asymm {v w : List Char} (h : WordLt v w) : ¬ WordLt w v := by
  have hasymm : Std.Asymm WordLt := List.Shortlex.asymm
  exact hasymm.asymm v w h

theorem eq_or_wordLt_of_not {v w : List Char} (h : ¬ WordLt w v) : v = w ∨ WordLt v w := by
  have htri : Std.Trichotomous WordLt := List.Shortlex.trichotomous
  by_cases hvw : WordLt v w
  · exact Or.inr hvw
  · exact Or.inl (htri.trichotomous v w hvw h)

theorem wellFounded_wordLt : WellFounded WordLt := by
  have hchar : WellFounded ((· < ·) : Char → Char → Prop) :=
    Subrelation.wf Scalar.lt_iff.1 (InvImage.wf (fun c : Char => c.ordinal.val) Nat.lt_wfRel.wf)
  exact List.Shortlex.wf hchar

theorem wordLt_nil_concat (v : List Char) (c : Char) : WordLt [] (v ++ [c]) := by
  rw [wordLt_iff]
  left
  simp

/-- Words stay in order when each is extended by one character. -/
theorem WordLt.concat {v w : List Char} (h : WordLt v w) (c e : Char) :
    WordLt (v ++ [c]) (w ++ [e]) := by
  rw [wordLt_iff, List.length_append, List.length_append]
  rcases wordLt_iff.1 h with hlt | ⟨heq, hlex⟩
  · left
    simpa using hlt
  · refine Or.inr ⟨by simpa using heq, ?_⟩
    clear h
    induction hlex with
    | nil => simp at heq
    | cons _ ih => exact .cons (ih (by simpa using heq))
    | rel hlt => exact .rel hlt

/-- A word comes before another that differs in the last character only. -/
theorem wordLt_concat_of_lt (w : List Char) {c e : Char} (h : c < e) :
    WordLt (w ++ [c]) (w ++ [e]) :=
  List.Shortlex.append_left ((List.shortlex_singleton_iff c e).2 h) w

namespace Dfa

open Exploration

variable {d : Dfa} {s t : Nat} {v w : List Char}

/-! ## Which of two states is met first -/

/-- States are numbered as a breadth-first exploration meets them. -/
def BreadthFirst (d : Dfa) : Prop :=
  explore .queue d.successors d.size [d.start] = List.range d.size

theorem BreadthFirst.start_eq (h : d.BreadthFirst) : d.start = 0 := by
  obtain ⟨later, hcons⟩ := exists_explore_eq_cons .queue d.successors d.size d.start
  rw [BreadthFirst, hcons] at h
  cases hsize : d.size with
  | zero => simp [hsize] at h
  | succ n =>
      rw [hsize, List.range_succ_eq_map] at h
      exact (List.cons.inj h).1

/-- A state that is met before another one is the start, or is met from an earlier state
than some occurrence of the other among successors, or stands before it there. -/
theorem BreadthFirst.met_before (h : d.BreadthFirst) (hd : d.WellFormed) {k : Nat}
    (hk : k < d.size) {before after : List Nat} (hsucc : d.successors k = before ++ t :: after)
    (ht : t < d.size) (hst : s < t) :
    s = d.start ∨ (∃ j < k, s ∈ d.successors j) ∨ s ∈ before := by
  have hidx : ∀ i < d.size, (List.range d.size).idxOf i = i := by
    intro i hi
    have hget := List.nodup_range.idxOf_getElem i (by simpa using hi)
    rwa [List.getElem_range] at hget
  have hlt : (List.range d.size).idxOf s < (List.range d.size).idxOf t := by
    rwa [hidx s (by omega), hidx t ht]
  have hmet := hd.enough_successors.explore_queue
  rw [h] at hmet
  -- the successors of the states before `k`, then those of `k`, then the others
  obtain ⟨m, hm⟩ : ∃ m, d.size = k + 1 + m := ⟨d.size - (k + 1), by omega⟩
  have hrange : List.range d.size = List.range k ++ k :: (List.range m).map (k + 1 + ·) := by
    rw [hm, List.range_add, List.range_succ, List.append_assoc, List.singleton_append]
  have hsplit : [d.start] ++ (List.range d.size).flatMap d.successors =
      (d.start :: (List.range k).flatMap d.successors ++ before) ++
        t :: (after ++ ((List.range m).map (k + 1 + ·)).flatMap d.successors) := by
    rw [hrange, List.flatMap_append, List.flatMap_cons, hsucc]
    simp
  rw [hmet, hsplit] at hlt
  have hmem := mem_of_idxOf_lt hlt
  rw [List.cons_append, List.mem_cons, List.mem_append, List.mem_flatMap] at hmem
  rcases hmem with hstart | ⟨j, hj, hs⟩ | hs
  · exact Or.inl hstart
  · exact Or.inr (Or.inl ⟨j, List.mem_range.1 hj, hs⟩)
  · exact Or.inr (Or.inr hs)

/-! ## Words that lead to states -/

/-- The word leads from the start to the state. -/
def LeadsTo (d : Dfa) (w : List Char) (s : Nat) : Prop := d.stepAll? d.start w = some s

theorem LeadsTo.concat {c : Char} (h : d.LeadsTo w s) (hstep : d.step? s c = some t) :
    d.LeadsTo (w ++ [c]) t := by
  rw [LeadsTo, stepAll?_append, h, Option.bind_some, stepAll?_cons, hstep]
  rfl

theorem LeadsTo.exists_last {c : Char} (h : d.LeadsTo (w ++ [c]) t) :
    ∃ k, d.LeadsTo w k ∧ d.step? k c = some t := by
  rw [LeadsTo, stepAll?_append, Option.bind_eq_some_iff] at h
  obtain ⟨k, hk, hstep⟩ := h
  rw [stepAll?_cons, Option.bind_eq_some_iff] at hstep
  obtain ⟨u, hu, htarget⟩ := hstep
  exact ⟨k, hk, hu.trans htarget⟩

/-- A transition can be taken with the first of its characters. -/
theorem WellFormed.step?_of_mem_row (hd : d.WellFormed) {u : Transition} (hu : u ∈ d.row s) :
    d.step? s u.on.lo = some u.target :=
  (Row.step?_eq_some_iff (hd.ordered_row s)).2 ⟨u, hu, u.on.lo_mem, rfl⟩

/-- For each word that leads to a state, and for each state that is met before it, there is
a lesser word that leads to that one. -/
theorem BreadthFirst.exists_wordLt (h : d.BreadthFirst) (hd : d.WellFormed)
    (hw : d.LeadsTo w t) (hst : s < t) : ∃ v, d.LeadsTo v s ∧ WordLt v w := by
  induction w using List.reverseRecOn generalizing s t with
  | nil =>
      have hstart : d.start = t := Option.some.inj hw
      have hzero := h.start_eq
      omega
  | append_singleton w c ih =>
      obtain ⟨k, hk, hstep⟩ := hw.exists_last
      obtain ⟨x, hx, hc, rfl⟩ := Row.exists_mem_of_step? hstep
      obtain ⟨before, after, hrow⟩ := List.append_of_mem hx
      have hsucc : d.successors k =
          before.map (·.target) ++ x.target :: after.map (·.target) := by
        rw [successors, hrow, List.map_append, List.map_cons]
      rcases h.met_before hd (hd.stepAll?_lt hd.start_lt hk) hsucc (hd.step?_lt hstep) hst with
        rfl | ⟨j, hj, hs⟩ | hs
      · exact ⟨[], rfl, wordLt_nil_concat w c⟩
      · obtain ⟨v, hv, hvw⟩ := ih hk hj
        obtain ⟨e, he⟩ := hd.mem_successors_iff.1 hs
        exact ⟨v ++ [e], hv.concat he, hvw.concat e c⟩
      · -- the transition stands before the other one in the row, so its characters are lesser
        obtain ⟨y, hy, rfl⟩ := List.mem_map.1 hs
        have hyx : y.on.Before x.on := by
          have hordered := hd.ordered_row k
          rw [Row.Ordered, Interval.Ascending, List.pairwise_map, hrow,
            List.pairwise_append] at hordered
          exact hordered.2.2 y hy x (by simp)
        have hlt : y.on.lo < c := by
          have hle := Scalar.le_iff.1 y.on.lo_mem.2
          have hhi := Scalar.lt_iff.1 hyx
          have hlo := Scalar.le_iff.1 hc.1
          rw [Scalar.lt_iff]
          omega
        have hmem : y ∈ d.row k := by simp [hrow, hy]
        exact ⟨w ++ [y.on.lo], hk.concat (hd.step?_of_mem_row hmem), wordLt_concat_of_lt w hlt⟩

/-! ## Least words -/

/-- The word is the least one that leads from the start to the state. -/
structure LeastWord (d : Dfa) (w : List Char) (s : Nat) : Prop where
  leads : d.LeadsTo w s
  least : ∀ v, d.LeadsTo v s → w = v ∨ WordLt w v

theorem Reached.exists_leastWord (h : d.Reached s) : ∃ w, d.LeastWord w s := by
  obtain ⟨w, hw, hmin⟩ := wellFounded_wordLt.has_min (fun w => d.LeadsTo w s) h
  exact ⟨w, hw, fun v hv => eq_or_wordLt_of_not (hmin v hv)⟩

theorem LeastWord.eq (hv : d.LeastWord v s) (hw : d.LeastWord w s) : v = w := by
  rcases hv.least w hw.leads with heq | hlt
  · exact heq
  · rcases hw.least v hv.leads with heq | hgt
    · exact heq.symm
    · exact absurd hgt hlt.asymm

theorem BreadthFirst.wordLt_of_lt (h : d.BreadthFirst) (hd : d.WellFormed)
    (hv : d.LeastWord v s) (hw : d.LeastWord w t) (hst : s < t) : WordLt v w := by
  obtain ⟨u, hu, huw⟩ := h.exists_wordLt hd hw.leads hst
  rcases hv.least u hu with rfl | hvu
  · exact huw
  · exact hvu.trans huw

theorem BreadthFirst.lt_iff_wordLt (h : d.BreadthFirst) (hd : d.WellFormed)
    (hv : d.LeastWord v s) (hw : d.LeastWord w t) : s < t ↔ WordLt v w := by
  refine ⟨h.wordLt_of_lt hd hv hw, fun hlt => ?_⟩
  rcases Nat.lt_trichotomy s t with hst | rfl | hts
  · exact hst
  · rw [hv.eq hw] at hlt
    exact absurd hlt hlt.asymm
  · exact absurd (h.wordLt_of_lt hd hw hv hts) hlt.asymm

/-! ## Minimization -/

/-- Minimization numbers states breadth first and keeps none that is not reached, also
when no word is accepted. -/
theorem WellFormed.breadthFirst_minimized (h : d.WellFormed) :
    d.minimized.BreadthFirst ∧ ∀ s < d.minimized.size, d.minimized.Reached s := by
  rcases h.minimized_cases with ⟨hminimal, -⟩ | ⟨hempty, -⟩
  · exact ⟨hminimal.numbered, hminimal.reached⟩
  · rw [hempty]
    refine ⟨rfl, fun s hs => ⟨[], ?_⟩⟩
    have hzero : s = 0 := Nat.lt_one_iff.1 hs
    rw [hzero]
    rfl

/-- All states of a minimal automaton can be reached, and they are numbered in the order of
the least words that lead to them, from the start on. -/
theorem minimized_lt_iff_wordLt (d : Dfa) (h : d.WellFormed) :
    d.minimized.start = 0 ∧
    (∀ s < d.minimized.size, ∃ w, d.minimized.LeastWord w s) ∧
    ∀ s t v w, d.minimized.LeastWord v s → d.minimized.LeastWord w t →
      (s < t ↔ WordLt v w) := by
  obtain ⟨hnumbered, hreached⟩ := h.breadthFirst_minimized
  refine ⟨hnumbered.start_eq, fun s hs => (hreached s hs).exists_leastWord, ?_⟩
  intro s t v w hv hw
  exact hnumbered.lt_iff_wordLt h.canonical_minimized.toWellFormed hv hw

/-- The words `a`, `aa` and `b`, with the states in an order of no meaning and one that
cannot be reached. -/
def shuffled : Dfa :=
  ⟨2, [⟨true, []⟩, ⟨true, [⟨.singleton 'a', 0⟩]⟩,
    ⟨false, [⟨.singleton 'a', 1⟩, ⟨.singleton 'b', 0⟩]⟩, ⟨true, [⟨.singleton 'c', 2⟩]⟩]⟩

theorem minimized_lt_iff_wordLt_shuffled :
    shuffled.WellFormed ∧ shuffled.minimized.start = 0 ∧
    shuffled.minimized.LeadsTo ['a'] 1 ∧ shuffled.minimized.LeadsTo ['b'] 2 ∧
    ∃ v w, shuffled.minimized.LeastWord v 1 ∧ shuffled.minimized.LeastWord w 2 ∧
      WordLt v w := by
  have hshuffled : shuffled.WellFormed := ⟨by decide, by decide, by decide⟩
  obtain ⟨hstart, hleast, hlt⟩ := minimized_lt_iff_wordLt shuffled hshuffled
  obtain ⟨v, hv⟩ := hleast 1 (by decide +kernel)
  obtain ⟨w, hw⟩ := hleast 2 (by decide +kernel)
  have ha : shuffled.minimized.stepAll? shuffled.minimized.start ['a'] = some 1 := by
    decide +kernel
  have hb : shuffled.minimized.stepAll? shuffled.minimized.start ['b'] = some 2 := by
    decide +kernel
  exact ⟨hshuffled, hstart, ha, hb, v, w, hv, hw, (hlt 1 2 v w hv hw).1 (by decide)⟩

end Dfa

end PatternAutomata
