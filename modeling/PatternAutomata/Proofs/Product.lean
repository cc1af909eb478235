import Mathlib.Data.List.ProdSigma
import PatternAutomata.Dfa.Product
import PatternAutomata.Pattern.Language
import PatternAutomata.Proofs.Tabulation

/-!
# The product of two automata

A pair of states has a step on a character if both states have one, and leads to the
pair of the targets. So a run of the product is a run of both automata at once, and the
product accepts what both accept.

## Main results

* `valueAt?_meet`: the steps of a pair of rows.
* `stepAll?_pairs`, `acceptsFrom_pairs`: runs and words of a pair of states.
* `language_inter`: the product accepts the intersection.
-/

namespace PatternAutomata

open PatternAutomata.Interval

namespace Row

theorem ascending_meet {left right : Row} (hl : left.Ordered) (hr : right.Ordered) :
    Ascending ((left.meet right).map (·.1)) := by
  unfold Ordered Ascending at hl hr
  rw [List.pairwise_map] at hl hr
  rw [Ascending, List.pairwise_map, meet, List.pairwise_flatMap]
  constructor
  · -- Common parts with one transition ascend as the other row does.
    intro l _
    rw [List.pairwise_filterMap]
    refine hr.imp ?_
    intro r r' hbefore e he e' he'
    obtain ⟨common, hcommon, rfl⟩ := Option.map_eq_some_iff.1 he
    obtain ⟨common', hcommon', rfl⟩ := Option.map_eq_some_iff.1 he'
    have h1 := inter?_eq_some_iff.1 hcommon
    have h2 := inter?_eq_some_iff.1 hcommon'
    rw [before_iff] at hbefore ⊢
    show common.top < common'.bottom
    omega
  · refine hl.imp ?_
    intro l l' hbefore e he e' he'
    obtain ⟨r, -, he⟩ := List.mem_filterMap.1 he
    obtain ⟨r', -, he'⟩ := List.mem_filterMap.1 he'
    obtain ⟨common, hcommon, rfl⟩ := Option.map_eq_some_iff.1 he
    obtain ⟨common', hcommon', rfl⟩ := Option.map_eq_some_iff.1 he'
    have h1 := inter?_eq_some_iff.1 hcommon
    have h2 := inter?_eq_some_iff.1 hcommon'
    rw [before_iff] at hbefore ⊢
    show common.top < common'.bottom
    omega

/-- A pair of rows has a step where both rows have one. -/
theorem valueAt?_meet {left right : Row} (hl : left.Ordered) (hr : right.Ordered) {c : Char}
    {p : Nat × Nat} : valueAt? (left.meet right) c = some p ↔
      left.step? c = some p.1 ∧ right.step? c = some p.2 := by
  rw [valueAt?_eq_some_iff (ascending_meet hl hr), step?_eq_some_iff hl, step?_eq_some_iff hr]
  constructor
  · intro h
    obtain ⟨i, hi, hc⟩ := h
    obtain ⟨l, hlmem, r, hrmem, hcommon, rfl⟩ := mem_meet.1 hi
    obtain ⟨hcl, hcr⟩ := mem_inter?.1 ⟨i, hcommon, hc⟩
    exact ⟨⟨l, hlmem, hcl, rfl⟩, ⟨r, hrmem, hcr, rfl⟩⟩
  · intro h
    obtain ⟨⟨l, hlmem, hcl, hl'⟩, ⟨r, hrmem, hcr, hr'⟩⟩ := h
    obtain ⟨i, hi, hc⟩ := mem_inter?.2 ⟨hcl, hcr⟩
    exact ⟨i, mem_meet.2 ⟨l, hlmem, r, hrmem, hi, Prod.ext hl'.symm hr'.symm⟩, hc⟩

end Row

namespace Dfa

variable {a b : Dfa}

theorem step?_pairs (ha : a.WellFormed) (hb : b.WellFormed) (p q : Nat × Nat) (c : Char) :
    (a.pairs b).step? p c = some q ↔
      a.step? p.1 c = some q.1 ∧ b.step? p.2 c = some q.2 :=
  Row.valueAt?_meet (ha.ordered_row p.1) (hb.ordered_row p.2)

/-- A word leads from a pair of states to the pair that it leads to in the two automata. -/
theorem stepAll?_pairs (ha : a.WellFormed) (hb : b.WellFormed) (p q : Nat × Nat)
    (w : List Char) : (a.pairs b).stepAll? p w = some q ↔
      a.stepAll? p.1 w = some q.1 ∧ b.stepAll? p.2 w = some q.2 := by
  induction w generalizing p with
  | nil =>
      rw [show (a.pairs b).stepAll? p [] = some p from rfl,
        show a.stepAll? p.1 [] = some p.1 from rfl, show b.stepAll? p.2 [] = some p.2 from rfl]
      simp only [Option.some_inj, Prod.ext_iff]
  | cons c w ih =>
      simp only [Machine.stepAll?_cons, stepAll?_cons, Option.bind_eq_some_iff, step?_pairs ha hb,
        ih]
      constructor
      · rintro ⟨r, ⟨hstepa, hstepb⟩, hruna, hrunb⟩
        exact ⟨⟨r.1, hstepa, hruna⟩, ⟨r.2, hstepb, hrunb⟩⟩
      · rintro ⟨⟨s, hstepa, hruna⟩, ⟨t, hstepb, hrunb⟩⟩
        exact ⟨(s, t), ⟨hstepa, hstepb⟩, hruna, hrunb⟩

/-- A pair of states accepts the words that both states accept. -/
theorem acceptsFrom_pairs (ha : a.WellFormed) (hb : b.WellFormed) (p : Nat × Nat)
    (w : List Char) :
    (a.pairs b).acceptsFrom p w = true ↔
      a.acceptsFrom p.1 w = true ∧ b.acceptsFrom p.2 w = true := by
  rw [Machine.acceptsFrom, Option.any_eq_true, acceptsFrom_iff, acceptsFrom_iff]
  constructor
  · rintro ⟨q, hrun, haccept⟩
    obtain ⟨hruna, hrunb⟩ := (stepAll?_pairs ha hb p q w).1 hrun
    obtain ⟨haccepta, hacceptb⟩ := Bool.and_eq_true_iff.1 haccept
    exact ⟨⟨q.1, hruna, haccepta⟩, ⟨q.2, hrunb, hacceptb⟩⟩
  · rintro ⟨⟨s, hruna, haccepta⟩, ⟨t, hrunb, hacceptb⟩⟩
    exact ⟨(s, t), (stepAll?_pairs ha hb p (s, t) w).2 ⟨hruna, hrunb⟩,
      Bool.and_eq_true_iff.2 ⟨haccepta, hacceptb⟩⟩

theorem confined_pairs (ha : a.WellFormed) (hb : b.WellFormed) :
    (a.pairs b).Confined (a.size * b.size)
      (List.range a.size ×ˢ List.range b.size) where
  start_mem := List.mem_product.2
    ⟨List.mem_range.2 ha.start_lt, List.mem_range.2 hb.start_lt⟩
  closed := fun p _ q hq => by
    obtain ⟨e, he, rfl⟩ := List.mem_map.1 hq
    obtain ⟨l, hl, r, hr, -, htargets⟩ := Row.mem_meet.1 he
    rw [htargets]
    exact List.mem_product.2
      ⟨List.mem_range.2 (ha.target_lt_row hl), List.mem_range.2 (hb.target_lt_row hr)⟩
  ascending := fun p _ => Row.ascending_meet (ha.ordered_row p.1) (hb.ordered_row p.2)
  length_le := by rw [List.length_product, List.length_range, List.length_range]

theorem canonical_inter (ha : a.WellFormed) (hb : b.WellFormed) : (a.inter b).Canonical :=
  (confined_pairs ha hb).canonical_toDfa .stack

/-- The product accepts the words of both automata. -/
theorem language_inter (ha : a.WellFormed) (hb : b.WellFormed) :
    (a.inter b).language = a.language ⊓ b.language := by
  ext w
  show (a.inter b).accepts w = true ↔ a.accepts w = true ∧ b.accepts w = true
  rw [inter, (confined_pairs ha hb).accepts_toDfa]
  exact acceptsFrom_pairs ha hb _ w

end Dfa

end PatternAutomata
