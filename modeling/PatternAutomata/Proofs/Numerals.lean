import PatternAutomata.Dfa.Numerals
import PatternAutomata.Proofs.Composition
import PatternAutomata.Proofs.Decimals

/-!
# The numerals of a range of numbers

A window admits the digit lists of its width whose numbers lie between those of the
bounds that still have a say. A digit may come next if some such list begins with it, and
what is left to satisfy after the digit is said by the next window (`admits_cons_iff`), so
the machine of windows accepts the numerals that its first window admits.

Numerals of any length are zeros in front of a numeral without zeros in front, the length
of which is that of some number in the range.

A number beyond the greatest one of its width has no numeral that is accepted. There is no
such number in a range of words whose width is a word.

## Main results

* `Sound.acceptsFrom_machine`: the words of a window.
* `mem_language_fixedWidth`: the numerals of one width.
* `language_numerals`: the numerals that are accepted, whatever the bounds and the width.
* `Decimal.computed_eq`: these are all numerals of the range if its numbers are words.
-/

namespace PatternAutomata.Dfa

open scoped Computability
open Decimal PatternAutomata.Interval

namespace Window

variable {v : Window} {d : Nat} {ds : List Nat} {c : Char} {w : List Char}

/-- The bounds that have a say are digit lists of the width. -/
structure Sound (v : Window) : Prop where
  lower : ∀ l ∈ v.lower, l.length = v.width ∧ Digits l
  upper : ∀ u ∈ v.upper, u.length = v.width ∧ Digits u

/-- The digit list is between the bounds. -/
structure Admits (v : Window) (ds : List Nat) : Prop where
  length_eq : ds.length = v.width
  digits : Digits ds
  lower : ∀ l ∈ v.lower, value l ≤ value ds
  upper : ∀ u ∈ v.upper, value ds ≤ value u

@[simp] theorem mem_choices : d ∈ v.choices ↔ v.width ≠ 0 ∧ v.first ≤ d ∧ d ≤ v.last := by
  rw [choices]
  by_cases hw : v.width = 0
  · simp [hw]
  · rw [if_neg hw, List.range_eq_range', List.drop_range', List.mem_range'_1]
    omega

theorem Sound.last_le (h : v.Sound) : v.last ≤ 9 := by
  rw [last]
  split
  · next d ds hupper =>
    have := (digits_cons_iff.1 (h.upper _ hupper).2).1
    omega
  · omega

theorem Sound.lt_ten (h : v.Sound) (hd : d ∈ v.choices) : d < 10 := by
  have h1 := h.last_le
  have h2 := (mem_choices.1 hd).2.2
  omega

theorem Sound.after (h : v.Sound) (d : Nat) : (v.after d).Sound := by
  have htail : ∀ l : List Nat, l.length = v.width ∧ Digits l →
      l.tail.length = v.width - 1 ∧ Digits l.tail := by
    intro l hl
    refine ⟨by rw [List.length_tail, hl.1], ?_⟩
    exact fun d hd => hl.2 d (List.mem_of_mem_tail hd)
  constructor
  · intro l hl
    rw [Window.after] at hl
    by_cases hfirst : d = v.first
    · simp only [if_pos hfirst, Option.mem_def, Option.map_eq_some_iff] at hl
      obtain ⟨l', hl', rfl⟩ := hl
      exact htail l' (h.lower l' hl')
    · simp only [if_neg hfirst, Option.not_mem_none] at hl
  · intro l hl
    rw [Window.after] at hl
    by_cases hlast : d = v.last
    · simp only [if_pos hlast, Option.mem_def, Option.map_eq_some_iff] at hl
      obtain ⟨l', hl', rfl⟩ := hl
      exact htail l' (h.upper l' hl')
    · simp only [if_neg hlast, Option.not_mem_none] at hl

theorem Sound.admits_nil_iff (h : v.Sound) : v.Admits [] ↔ v.width = 0 := by
  constructor
  · intro hadmits
    exact hadmits.length_eq.symm
  · intro hw
    have hnil : ∀ l : List Nat, l.length = v.width → l = [] := by
      intro l hl
      exact List.length_eq_zero_iff.1 (hl.trans hw)
    refine ⟨hw.symm, ?_, ?_, ?_⟩
    · intro d hd
      cases hd
    · intro l hl
      rw [hnil l (h.lower l hl).1]
    · intro u hu
      rw [hnil u (h.upper u hu).1]

/-- The lower bound on a digit list, by its first digit. -/
theorem Sound.lower_cons_iff (h : v.Sound) (hlength : ds.length + 1 = v.width)
    (hds : Digits ds) : (∀ l ∈ v.lower, value l ≤ value (d :: ds)) ↔
      v.first ≤ d ∧ ∀ l ∈ (v.after d).lower, value l ≤ value ds := by
  cases hlower : v.lower with
  | none =>
      have hfirst : v.first = 0 := by rw [Window.first, hlower]
      have hafter : (v.after d).lower = none := by simp [Window.after, hlower]
      simp [hfirst, hafter]
  | some l =>
      obtain ⟨hl, hdigits⟩ := h.lower l hlower
      cases l with
      | nil =>
          rw [List.length_nil] at hl
          omega
      | cons e l =>
          have hlen : l.length = ds.length := by
            rw [List.length_cons] at hl
            omega
          have hfirst : v.first = e := by rw [Window.first, hlower]
          have hafter : (v.after d).lower = if d = e then some l else none := by
            simp only [Window.after, hfirst, hlower, Option.map_some, List.tail_cons]
          simp only [hfirst, hafter, Option.mem_def, Option.some_inj, forall_eq']
          rw [value_cons_le_iff (digits_cons_iff.1 hdigits).2 hds hlen]
          by_cases hde : d = e
          · simp only [if_pos hde, Option.some_inj, forall_eq']
            omega
          · simp only [if_neg hde, reduceCtorEq, false_imp_iff, implies_true, and_true]
            omega

/-- The upper bound on a digit list, by its first digit. -/
theorem Sound.upper_cons_iff (h : v.Sound) (hlength : ds.length + 1 = v.width)
    (hds : Digits ds) (hd : d < 10) : (∀ u ∈ v.upper, value (d :: ds) ≤ value u) ↔
      d ≤ v.last ∧ ∀ u ∈ (v.after d).upper, value ds ≤ value u := by
  cases hupper : v.upper with
  | none =>
      have hlast : v.last = 9 := by rw [Window.last, hupper]
      have hafter : (v.after d).upper = none := by simp [Window.after, hupper]
      simp only [hlast, hafter, Option.not_mem_none, false_imp_iff, implies_true, and_true,
        true_iff]
      omega
  | some u =>
      obtain ⟨hu, hdigits⟩ := h.upper u hupper
      cases u with
      | nil =>
          rw [List.length_nil] at hu
          omega
      | cons e u =>
          have hlen : ds.length = u.length := by
            rw [List.length_cons] at hu
            omega
          have hlast : v.last = e := by rw [Window.last, hupper]
          have hafter : (v.after d).upper = if d = e then some u else none := by
            simp only [Window.after, hlast, hupper, Option.map_some, List.tail_cons]
          simp only [hlast, hafter, Option.mem_def, Option.some_inj, forall_eq']
          rw [value_cons_le_iff hds (digits_cons_iff.1 hdigits).2 hlen]
          by_cases hde : d = e
          · simp only [if_pos hde, Option.some_inj, forall_eq']
            omega
          · simp only [if_neg hde, reduceCtorEq, false_imp_iff, implies_true, and_true]
            omega

/-- A window admits the lists of a digit that may come next and of what the window after
the digit admits. -/
theorem Sound.admits_cons_iff (h : v.Sound) :
    v.Admits (d :: ds) ↔ d ∈ v.choices ∧ (v.after d).Admits ds := by
  constructor
  · intro hadmits
    obtain ⟨hd, hds⟩ := digits_cons_iff.1 hadmits.digits
    have hlength := hadmits.length_eq
    rw [List.length_cons] at hlength
    obtain ⟨hfirst, hlower⟩ := (h.lower_cons_iff hlength hds).1 hadmits.lower
    obtain ⟨hlast, hupper⟩ := (h.upper_cons_iff hlength hds hd).1 hadmits.upper
    refine ⟨mem_choices.2 ⟨by omega, hfirst, hlast⟩, ?_, hds, hlower, hupper⟩
    show ds.length = v.width - 1
    omega
  · intro hd
    obtain ⟨hd, hadmits⟩ := hd
    obtain ⟨hw, hfirst, hlast⟩ := mem_choices.1 hd
    have hlength : ds.length + 1 = v.width := by
      have : ds.length = v.width - 1 := hadmits.length_eq
      omega
    have hlt := h.lt_ten hd
    exact ⟨hlength, digits_cons_iff.2 ⟨hlt, hadmits.digits⟩,
      (h.lower_cons_iff hlength hadmits.digits).2 ⟨hfirst, hadmits.lower⟩,
      (h.upper_cons_iff hlength hadmits.digits hlt).2 ⟨hlast, hadmits.upper⟩⟩

/-! ## The machine of windows -/

variable {first : Window}

theorem Sound.ascending (h : v.Sound) :
    Ascending ((first.machine.edges v).map (·.1)) := by
  have hsorted : v.choices.Pairwise (· < ·) := by
    rw [choices]
    split
    · exact List.Pairwise.nil
    · exact List.pairwise_lt_range.drop
  rw [Ascending, List.pairwise_map, show first.machine.edges v =
    v.choices.map fun d => (.singleton (digitChar d), v.after d) from rfl, List.pairwise_map]
  refine hsorted.imp_of_mem ?_
  intro d e hd he hlt
  show digitChar d < digitChar e
  rw [Scalar.lt_iff, ordinal_digitChar (h.lt_ten hd), ordinal_digitChar (h.lt_ten he)]
  omega

theorem Sound.step?_machine (h : v.Sound) {v' : Window} :
    first.machine.step? v c = some v' ↔
      ∃ d ∈ v.choices, c = digitChar d ∧ v' = v.after d := by
  rw [Machine.step?_eq_valueAt?, valueAt?_eq_some_iff h.ascending]
  constructor
  · intro hi
    obtain ⟨i, hi, hc⟩ := hi
    obtain ⟨d, hd, heq⟩ := List.mem_map.1 hi
    cases heq
    exact ⟨d, hd, mem_singleton.1 hc, rfl⟩
  · intro hd
    obtain ⟨d, hd, rfl, rfl⟩ := hd
    exact ⟨_, List.mem_map.2 ⟨d, hd, rfl⟩, mem_singleton.2 rfl⟩

/-- A window accepts the numerals of the digit lists that it admits. -/
theorem Sound.acceptsFrom_machine (h : v.Sound) (w : List Char) :
    first.machine.acceptsFrom v w = true ↔ ∃ ds, v.Admits ds ∧ w = ds.map digitChar := by
  induction w generalizing v with
  | nil =>
      rw [Machine.acceptsFrom_nil, show first.machine.accepting v = (v.width == 0) from rfl,
        beq_iff_eq, ← h.admits_nil_iff]
      constructor
      · intro hadmits
        exact ⟨[], hadmits, rfl⟩
      · intro hds
        obtain ⟨ds, hadmits, heq⟩ := hds
        rwa [List.map_eq_nil_iff.1 heq.symm] at hadmits
  | cons c w ih =>
      rw [Machine.acceptsFrom_cons, Option.any_eq_true]
      constructor
      · intro hv
        obtain ⟨v', hstep, hw⟩ := hv
        obtain ⟨d, hd, rfl, rfl⟩ := h.step?_machine.1 hstep
        obtain ⟨ds, hadmits, rfl⟩ := (ih (h.after d)).1 hw
        exact ⟨d :: ds, h.admits_cons_iff.2 ⟨hd, hadmits⟩, rfl⟩
      · intro hds
        obtain ⟨ds, hadmits, heq⟩ := hds
        cases ds with
        | nil => cases heq
        | cons d ds =>
            rw [List.map_cons, List.cons_eq_cons] at heq
            obtain ⟨hd, hadmits⟩ := h.admits_cons_iff.1 hadmits
            exact ⟨v.after d, h.step?_machine.2 ⟨d, hd, heq.1, rfl⟩,
              (ih (h.after d)).2 ⟨ds, hadmits, heq.2⟩⟩

theorem mem_successors_machine {v' : Window} :
    v' ∈ first.machine.successors v ↔ ∃ d ∈ v.choices, v.after d = v' := by
  rw [Machine.successors, show first.machine.edges v =
    v.choices.map fun d => (.singleton (digitChar d), v.after d) from rfl, List.map_map,
    List.mem_map]
  rfl

theorem width_lt_of_mem_successors {v' : Window} (h : v' ∈ first.machine.successors v) :
    v'.width < v.width := by
  obtain ⟨d, hd, rfl⟩ := mem_successors_machine.1 h
  have := (mem_choices.1 hd).1
  show v.width - 1 < v.width
  omega

theorem Sound.of_mem_successors {v' : Window} (h : v.Sound)
    (hv' : v' ∈ first.machine.successors v) : v'.Sound := by
  obtain ⟨d, -, rfl⟩ := mem_successors_machine.1 hv'
  exact h.after d

/-- The windows met depth first are closed, as each digit takes one off the width. -/
theorem Sound.closed_preorder (h : v.Sound) :
    v.machine.Closed (Exploration.preorder v.machine.successors v.width [] v) := by
  obtain ⟨-, hmem, hclosed⟩ := Exploration.preorder_spec
    (fun _ _ hl => width_lt_of_mem_successors hl) (Nat.le_refl v.width)
    (show Exploration.ClosedUpTo v.machine.successors [] [] from fun k hk => by cases hk)
  refine ⟨hmem, ?_, ?_⟩
  · intro k hk
    exact (hclosed k hk).resolve_left List.not_mem_nil
  · intro k hk
    refine Sound.ascending (Exploration.preorder_induction (P := Sound) ?_ ?_ h k hk)
    · intro k hk l hl
      exact hk.of_mem_successors hl
    · intro l hl
      cases hl

end Window

/-! ## Numerals of one width -/

variable {width lo hi k : Nat} {w : List Char}

/-- The window before the first digit. -/
def outset (width lo hi : Nat) : Window :=
  ⟨width, some (padded width lo), some (padded width hi)⟩

theorem sound_outset (hlo : length lo ≤ width) (hhi : length hi ≤ width) :
    (outset width lo hi).Sound := by
  constructor
  · intro l hl
    cases hl
    refine ⟨?_, digits_padded width lo⟩
    rw [length_padded]
    exact Nat.max_eq_left hlo
  · intro u hu
    cases hu
    refine ⟨?_, digits_padded width hi⟩
    rw [length_padded]
    exact Nat.max_eq_left hhi

theorem admits_outset {ds : List Nat} : (outset width lo hi).Admits ds ↔
    ds.length = width ∧ Digits ds ∧ lo ≤ value ds ∧ value ds ≤ hi := by
  constructor
  · intro h
    have hlower := h.lower _ rfl
    have hupper := h.upper _ rfl
    rw [value_padded] at hlower hupper
    exact ⟨h.length_eq, h.digits, hlower, hupper⟩
  · intro h
    obtain ⟨hlength, hdigits, hlo, hhi⟩ := h
    refine ⟨hlength, hdigits, ?_, ?_⟩
    · intro l hl
      cases hl
      rwa [value_padded]
    · intro u hu
      cases hu
      rwa [value_padded]

theorem fixedWidth_of_lt (h : min hi (greatestOfWidth width) < lo) :
    fixedWidth width lo hi = empty := if_pos h

theorem fixedWidth_of_le (h : ¬ min hi (greatestOfWidth width) < lo) :
    fixedWidth width lo hi =
      (outset width lo (min hi (greatestOfWidth width))).machine.tabulate
        (Exploration.preorder
          (outset width lo (min hi (greatestOfWidth width))).machine.successors width []
          (outset width lo (min hi (greatestOfWidth width)))) := if_neg h

/-- What is left of the range has numbers of the width only. -/
theorem sound_outset_min (hwidth : 0 < width) (h : ¬ min hi (greatestOfWidth width) < lo) :
    (outset width lo (min hi (greatestOfWidth width))).Sound := by
  have hlt := greatestOfWidth_lt width
  apply sound_outset
  · rw [length_le_iff hwidth]
    omega
  · rw [length_le_iff hwidth]
    omega

theorem canonical_fixedWidth (hwidth : 0 < width) (lo hi : Nat) :
    (fixedWidth width lo hi).Canonical := by
  by_cases h : min hi (greatestOfWidth width) < lo
  · rw [fixedWidth_of_lt h]
    exact canonical_empty
  · rw [fixedWidth_of_le h]
    exact (sound_outset_min hwidth h).closed_preorder.canonical_tabulate

theorem mem_language_fixedWidth (hwidth : 0 < width) :
    w ∈ (fixedWidth width lo hi).language ↔
      ∃ ds, ds.length = width ∧ Digits ds ∧ lo ≤ value ds ∧
        value ds ≤ min hi (greatestOfWidth width) ∧ w = ds.map digitChar := by
  by_cases h : min hi (greatestOfWidth width) < lo
  · rw [fixedWidth_of_lt h, language_empty]
    constructor
    · intro hw
      cases hw
    · intro hds
      obtain ⟨ds, -, -, hlo, hhi, -⟩ := hds
      omega
  · have hsound := sound_outset_min hwidth h
    have haccepts := hsound.closed_preorder.accepts_tabulate w
    rw [mem_language, fixedWidth_of_le h]
    refine (Bool.eq_iff_iff.1 haccepts).trans ((hsound.acceptsFrom_machine w).trans ?_)
    simp only [admits_outset, and_assoc]

/-! ## Numerals of any length -/

/-- The least number with `k` digits. -/
def leastOfLength (k : Nat) : Nat := if k = 1 then 0 else 10 ^ (k - 1)

theorem ofLength?_eq_some_iff {d : Dfa} : ofLength? lo hi k = some d ↔
    max lo (leastOfLength k) ≤ min hi (10 ^ k - 1) ∧
    fixedWidth k (max lo (leastOfLength k)) (min hi (10 ^ k - 1)) = d := by
  rw [show ofLength? lo hi k = if max lo (leastOfLength k) ≤ min hi (10 ^ k - 1) then
    some (fixedWidth k (max lo (leastOfLength k)) (min hi (10 ^ k - 1))) else none from rfl]
  by_cases h : max lo (leastOfLength k) ≤ min hi (10 ^ k - 1)
  · rw [if_pos h, Option.some_inj]
    exact ⟨fun heq => ⟨h, heq⟩, fun heq => heq.2⟩
  · rw [if_neg h]
    exact iff_of_false (fun heq => by cases heq) fun heq => h heq.1

theorem canonical_of_ofLength? {d : Dfa} (hk : 0 < k) (h : ofLength? lo hi k = some d) :
    d.Canonical := by
  obtain ⟨-, rfl⟩ := ofLength?_eq_some_iff.1 h
  exact canonical_fixedWidth hk _ _

/-- The number of digits of a digit list without zeros in front. -/
theorem length_eq_of_digits {n : Nat} (hn : length n = k) :
    leastOfLength k ≤ n ∧ n ≤ 10 ^ k - 1 := by
  have hk : 0 < k := hn ▸ length_pos n
  have hlt := lt_pow_length n
  rw [hn] at hlt
  refine ⟨?_, by omega⟩
  rw [leastOfLength]
  by_cases hk1 : k = 1
  · rw [if_pos hk1]
    exact Nat.zero_le n
  · rw [if_neg hk1]
    by_contra hlt
    have := (length_le_iff (show 0 < k - 1 by omega)).2 (Nat.lt_of_not_le hlt)
    omega

/-- A digit list whose number needs all of its digits is made of the digits of that
number. -/
theorem eq_digits_of_leastOfLength_le (hpos : 0 < ds.length) (hds : Digits ds)
    (h : leastOfLength ds.length ≤ value ds) : ds = digits (value ds) := by
  have hle : length (value ds) ≤ ds.length := (length_le_iff hpos).2 (value_lt hds)
  have hge : ds.length ≤ length (value ds) := by
    by_contra hlt
    have hvalue := length_pos (value ds)
    rw [leastOfLength, if_neg (by omega)] at h
    have := (length_le_iff (show 0 < ds.length - 1 by omega)).1
      (show length (value ds) ≤ ds.length - 1 by omega)
    omega
  exact eq_of_value_eq hds (digits_digits _) (Nat.le_antisymm hge hle) (value_digits _).symm

/-- The automata for the lengths that numbers up to `hi` may have. -/
def ofLengths (lo hi : Nat) : List Dfa :=
  ((List.range (length hi)).map (· + 1)).filterMap (ofLength? lo hi)

theorem mem_ofLengths {d : Dfa} : d ∈ ofLengths lo hi ↔
    ∃ k, 0 < k ∧ k ≤ length hi ∧ ofLength? lo hi k = some d := by
  rw [ofLengths, List.mem_filterMap]
  simp only [List.mem_map, List.mem_range, exists_exists_and_eq_and]
  constructor
  · intro h
    obtain ⟨k, hk, heq⟩ := h
    exact ⟨k + 1, by omega, hk, heq⟩
  · intro h
    obtain ⟨k, hpos, hk, heq⟩ := h
    exact ⟨k - 1, by omega, by rwa [Nat.sub_add_cancel hpos]⟩

theorem wellFormed_ofLengths (lo hi : Nat) : ∀ d ∈ ofLengths lo hi, d.WellFormed := by
  intro d hd
  obtain ⟨k, hk, -, heq⟩ := mem_ofLengths.1 hd
  exact (canonical_of_ofLength? hk heq).toWellFormed

theorem mem_language_union_ofLengths : w ∈ (union (ofLengths lo hi)).language ↔
    ∃ d ∈ ofLengths lo hi, w ∈ d.language := by
  rw [language_union (wellFormed_ofLengths lo hi), mem_sum_iff]
  simp only [List.mem_map, exists_exists_and_eq_and]

theorem mem_kstar_zero : w ∈ ({['0']} : Language Char)∗ ↔ ∃ j, w = List.replicate j '0' := by
  rw [Language.mem_kstar]
  constructor
  · intro h
    obtain ⟨parts, rfl, hparts⟩ := h
    refine ⟨parts.length, ?_⟩
    induction parts with
    | nil => rfl
    | cons v parts ih =>
        have hv : v = ['0'] := hparts v (by simp)
        rw [List.flatten_cons, hv, ih fun y hy => hparts y (List.mem_cons_of_mem v hy),
          List.length_cons, List.replicate_succ]
        rfl
  · intro h
    obtain ⟨j, rfl⟩ := h
    refine ⟨List.replicate j ['0'], ?_, ?_⟩
    · rw [List.flatten_replicate_singleton]
    · intro y hy
      rw [List.eq_of_mem_replicate hy]
      rfl

theorem wellFormed_ofChar (c : Char) : (ofChar c).WellFormed := wellFormed_ofRange c c

theorem zeros_operands (lo hi : Nat) :
    ∀ d ∈ [(ofChar '0').star, union (ofLengths lo hi)], d.WellFormed := by
  intro d hd
  rcases List.mem_cons.1 hd with rfl | hd
  · exact (canonical_star (wellFormed_ofChar '0')).toWellFormed
  · rw [List.mem_singleton.1 hd]
    exact (canonical_union (wellFormed_ofLengths lo hi)).toWellFormed

/-- The words of all the lengths are the numbers without zeros in front. -/
theorem mem_language_union_ofLengths_iff : w ∈ (union (ofLengths lo hi)).language ↔
    ∃ n, lo ≤ n ∧ n ≤ hi ∧ n ≤ greatestOfWidth (length n) ∧ w = (digits n).map digitChar := by
  rw [mem_language_union_ofLengths]
  constructor
  · intro h
    obtain ⟨d, hd, hw⟩ := h
    obtain ⟨k, hk, -, heq⟩ := mem_ofLengths.1 hd
    obtain ⟨-, rfl⟩ := ofLength?_eq_some_iff.1 heq
    obtain ⟨ds, rfl, hdigits, hlower, hupper, rfl⟩ := (mem_language_fixedWidth hk).1 hw
    obtain ⟨hlow, hleast⟩ := Nat.max_le.1 hlower
    have hds := eq_digits_of_leastOfLength_le hk hdigits hleast
    have hlength : length (value ds) = ds.length := congrArg List.length hds.symm
    refine ⟨value ds, hlow, by omega, ?_, ?_⟩
    · rw [hlength]
      omega
    · rw [← hds]
  · intro h
    obtain ⟨n, hlower, hupper, hreach, rfl⟩ := h
    obtain ⟨hleast, hgreatest⟩ := length_eq_of_digits (n := n) rfl
    have hle : max lo (leastOfLength (length n)) ≤ min hi (10 ^ length n - 1) := by omega
    refine ⟨_, mem_ofLengths.2 ⟨length n, length_pos n, length_mono hupper,
      ofLength?_eq_some_iff.2 ⟨hle, rfl⟩⟩, ?_⟩
    refine (mem_language_fixedWidth (length_pos n)).2
      ⟨digits n, rfl, digits_digits n, ?_, ?_, rfl⟩
    · rw [value_digits]
      omega
    · rw [value_digits]
      omega

/-- Zeros and a numeral without zeros in front make up any numeral. -/
theorem mem_language_zeros : w ∈
    (concat [(ofChar '0').star, union (ofLengths lo hi)]).language ↔
      ∃ ds, ds ≠ [] ∧ Digits ds ∧ lo ≤ value ds ∧ value ds ≤ hi ∧
        value ds ≤ greatestOfWidth (length (value ds)) ∧ w = ds.map digitChar := by
  have hzero : (ofChar '0').star.language = ({['0']} : Language Char)∗ := by
    rw [language_star (wellFormed_ofChar '0'), language_ofChar]
  rw [language_concat (zeros_operands lo hi)]
  simp only [List.map_cons, List.map_nil, List.prod_cons, List.prod_nil, mul_one]
  rw [Language.mem_mul, hzero]
  simp only [mem_kstar_zero, mem_language_union_ofLengths_iff]
  constructor
  · intro h
    obtain ⟨_, ⟨j, rfl⟩, _, ⟨n, hlower, hupper, hreach, rfl⟩, rfl⟩ := h
    have hvalue : value (List.replicate j 0 ++ digits n) = n := by
      rw [value_replicate_append, value_digits]
    refine ⟨List.replicate j 0 ++ digits n, ?_, (digits_digits n).replicate_append j, ?_⟩
    · exact List.append_ne_nil_of_right_ne_nil _ (List.ne_nil_of_length_pos (length_pos n))
    · rw [hvalue, List.map_append, List.map_replicate]
      exact ⟨hlower, hupper, hreach, rfl⟩
  · intro h
    obtain ⟨ds, hne, hdigits, hlower, hupper, hreach, rfl⟩ := h
    refine ⟨_, ⟨ds.length - length (value ds), rfl⟩, _,
      ⟨value ds, hlower, hupper, hreach, rfl⟩, ?_⟩
    -- The zeros in front are what padding adds to the digits of the number.
    have hpadded := padded_value hdigits hne
    rw [padded] at hpadded
    conv_rhs => rw [← hpadded]
    rw [List.map_append, List.map_replicate]
    rfl

/-! ## Both kinds of numerals -/

theorem mem_computed {a b : Nat} : w ∈ Decimal.computed a b width ↔
    ∃ ds, ds ≠ [] ∧ Digits ds ∧ min a b ≤ value ds ∧ value ds ≤ max a b ∧
      (width ≠ 0 → ds.length = max width (length (max a b))) ∧
      value ds ≤ greatestOfWidth (if width = 0 then length (value ds) else ds.length) ∧
      w = ds.map digitChar := by
  constructor
  · intro h
    obtain ⟨⟨hne, hdigits, hlo, hhi, hlength⟩, hreach⟩ := h
    obtain ⟨ds, hds, rfl⟩ := exists_digits_iff.1 hdigits
    rw [read_map_digitChar hds] at hlo hhi hreach
    rw [List.length_map] at hlength hreach
    exact ⟨ds, fun hnil => hne (by rw [hnil]; rfl), hds, hlo, hhi, hlength, hreach, rfl⟩
  · intro h
    obtain ⟨ds, hne, hds, hlo, hhi, hlength, hreach, rfl⟩ := h
    refine ⟨⟨?_, exists_digits_iff.2 ⟨ds, hds, rfl⟩, ?_, ?_, ?_⟩, ?_⟩
    · intro hnil
      exact hne (List.map_eq_nil_iff.1 hnil)
    · rwa [read_map_digitChar hds]
    · rwa [read_map_digitChar hds]
    · rwa [List.length_map]
    · rwa [read_map_digitChar hds, List.length_map]

theorem numerals_eq (a b width : Nat) : numerals a b width =
    if width = 0 then concat [(ofChar '0').star, union (ofLengths (min a b) (max a b))]
    else fixedWidth (max width (length (max a b))) (min a b) (max a b) := rfl

theorem canonical_numerals (a b width : Nat) : (numerals a b width).Canonical := by
  rw [numerals_eq]
  by_cases hw : width = 0
  · rw [if_pos hw]
    exact canonical_concat (zeros_operands _ _)
  · rw [if_neg hw]
    exact canonical_fixedWidth (by omega) _ _

/-- The automaton accepts the numerals for the numbers between the bounds, as far as these
are not beyond the greatest one of their width. -/
@[simp] theorem language_numerals (a b width : Nat) :
    (numerals a b width).language = Decimal.computed a b width := by
  ext w
  rw [numerals_eq, mem_computed]
  by_cases hw : width = 0
  · rw [if_pos hw, mem_language_zeros]
    simp only [hw, if_true, ne_eq, not_true_eq_false, false_imp_iff, true_and]
  · have hpos : 0 < max width (length (max a b)) := by omega
    rw [if_neg hw, mem_language_fixedWidth hpos]
    constructor
    · intro h
      obtain ⟨ds, hlength, hdigits, hlo, hhi, heq⟩ := h
      refine ⟨ds, ?_, hdigits, hlo, (Nat.le_min.1 hhi).1, fun _ => hlength, ?_, heq⟩
      · intro hnil
        rw [hnil, List.length_nil] at hlength
        omega
      · rw [if_neg hw, hlength]
        exact (Nat.le_min.1 hhi).2
    · intro h
      obtain ⟨ds, -, hdigits, hlo, hhi, hlength, hreach, heq⟩ := h
      rw [if_neg hw, hlength hw] at hreach
      exact ⟨ds, hlength hw, hdigits, hlo, Nat.le_min.2 ⟨hhi, hreach⟩, heq⟩

end PatternAutomata.Dfa

namespace PatternAutomata.Decimal

variable {a b n width : Nat}

/-- If the bounds and the width are words, no number of the range is beyond the greatest
one of its width. -/
theorem computed_eq (ha : a < 2 ^ 32) (hb : b < 2 ^ 32) (hwidth : width < 2 ^ 32) :
    computed a b width = language a b width := by
  ext w
  constructor
  · intro h
    exact h.1
  · intro h
    refine ⟨h, ?_⟩
    obtain ⟨hne, hdigits, -, hhi, hlength⟩ := h
    have hword : read w < 2 ^ 32 := by omega
    by_cases hzero : width = 0
    · rw [if_pos hzero]
      have hten := length_word_le hword
      exact le_greatestOfWidth (by omega) (by omega) (Nat.le_refl _)
    · rw [if_neg hzero]
      have hten := length_word_le (show max a b < 2 ^ 32 by omega)
      refine le_greatestOfWidth ?_ (by omega) (length_read_le hdigits hne)
      rw [hlength hzero]
      omega

/-- A number of the range, written out with the width that numerals have, is one of them. -/
theorem render_mem_language (hlo : min a b ≤ n) (hhi : n ≤ max a b) :
    render (max width (length (max a b))) n ∈ language a b width := by
  refine ⟨render_ne_nil _ n, fun c hc => isDigit_of_mem_render hc, ?_, ?_, fun _ => ?_⟩
  · rwa [read_render]
  · rwa [read_render]
  · rw [length_render]
    have hle : length n ≤ length (max a b) := length_mono hhi
    omega

end PatternAutomata.Decimal
