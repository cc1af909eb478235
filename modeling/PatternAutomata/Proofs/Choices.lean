import Mathlib.Data.Set.Card
import PatternAutomata.Checked.Choices
import PatternAutomata.Proofs.CodePoints
import PatternAutomata.Proofs.Searches
import PatternAutomata.Proofs.Weights

/-!
# The characters of a state, by their numbers

A row leads on with each character at most once, so the sums of widths along it are at most
the number of all characters, far from the greatest word. The sums ascend, and halving finds
the first that is greater than the number wanted. The sum before it is not greater, and what
is left is less than the width of the transition found. So no call fails, and the choice by
words is the one by numbers.

Since the characters are numbered in ascending order, the number of a character is the
number of characters before it, and the total is the number of all characters of the row.

## Main results

* `WordWeights.ofRow_eq`, `WordWeights.pick_eq`: words and numbers.
* `WordWeights.choices_exact`: what a row is asked for its characters one by one.
-/

namespace PatternAutomata

open PatternAutomata.Interval

/-- The characters that a row has a step on. -/
def Row.domain (row : Row) : Set Char := {c | ∃ t, row.step? c = some t}

/-! ## Sums of widths -/

namespace Weights

variable {row : Row} {before sum k n : Nat}

theorem mem_sumsFrom (h : sum ∈ sumsFrom before row) :
    before ≤ sum ∧ sum ≤ before + steps row := by
  induction row generalizing before with
  | nil => cases h
  | cons t row ih =>
      rw [steps_cons]
      rcases List.mem_cons.1 h with rfl | h
      · omega
      · have := ih h
        omega

theorem sumsFrom_ascending (before : Nat) (row : Row) :
    (sumsFrom before row).Pairwise (· ≤ ·) := by
  induction row generalizing before with
  | nil => exact List.Pairwise.nil
  | cons t row ih => exact List.pairwise_cons.2 ⟨fun sum h => (mem_sumsFrom h).1, ih _⟩

/-- The numbers of the steps of a row are words, with room to spare. -/
theorem steps_le {row : Row} (h : row.Ordered) : steps row ≤ 0x10F800 :=
  total_ofRow row ▸ total_le h

/-- As many characters as there are numbers below a bound have one of these. -/
theorem ncard_numbered {row : Row} (h : row.Ordered) {k : Nat} (hk : k ≤ (ofRow row).total) :
    {b | ∃ m < k, ∃ t, (ofRow row).pick? m = some (b, t)}.ncard = k := by
  choose! char target hpick hstep using
    fun m (hm : m < (ofRow row).total) => exists_step_of_lt_total h hm
  have himage : {b | ∃ m < k, ∃ t, (ofRow row).pick? m = some (b, t)} =
      char '' (Finset.range k : Set Nat) := by
    ext b
    simp only [Set.mem_ofPred_eq, Set.mem_image, Finset.mem_coe, Finset.mem_range]
    constructor
    · rintro ⟨m, hm, t, hb⟩
      rw [hpick m (by omega)] at hb
      cases hb
      exact ⟨m, hm, rfl⟩
    · rintro ⟨m, hm, rfl⟩
      exact ⟨m, hm, target m, hpick m (by omega)⟩
  have hinj : Set.InjOn char (Finset.range k : Set Nat) := by
    intro m hm n hn heq
    rw [Finset.mem_coe, Finset.mem_range] at hm hn
    have hm := hpick m (by omega)
    rw [heq] at hm
    exact pick?_inj h hm (hpick n (by omega))
  rw [himage, hinj.ncard_image, Set.ncard_coe_finset, Finset.card_range]

/-- The total is the number of characters that the row has a step on. -/
theorem ncard_domain {row : Row} (h : row.Ordered) :
    row.domain.ncard = (ofRow row).total := by
  rw [← ncard_numbered h (Nat.le_refl _)]
  congr 1
  ext c
  constructor
  · rintro ⟨t, hstep⟩
    obtain ⟨n, hn, hpick⟩ := exists_pick?_of_step? hstep
    exact ⟨n, hn, t, hpick⟩
  · rintro ⟨n, hn, t, hpick⟩
    obtain ⟨c', t', hpick', hstep⟩ := exists_step_of_lt_total h hn
    rw [hpick] at hpick'
    cases hpick'
    exact ⟨t, hstep⟩

/-- The number of a character is the number of the characters of the row before it. -/
theorem ncard_before {row : Row} (h : row.Ordered) {c : Char} {t : Nat}
    (hn : n < (ofRow row).total) (hpick : (ofRow row).pick? n = some (c, t)) :
    {b ∈ row.domain | b < c}.ncard = n := by
  rw [← ncard_numbered h (Nat.le_of_lt hn)]
  congr 1
  ext b
  constructor
  · rintro ⟨⟨s, hstep⟩, hlt⟩
    obtain ⟨m, hm, hb⟩ := exists_pick?_of_step? hstep
    refine ⟨m, ?_, s, hb⟩
    rcases Nat.lt_trichotomy m n with hmn | rfl | hmn
    · exact hmn
    · rw [hpick] at hb
      cases hb
      exact absurd hlt (Char.lt_irrefl _)
    · exact absurd (pick?_lt h hmn hpick hb) (Char.lt_asymm hlt)
  · rintro ⟨m, hm, s, hb⟩
    obtain ⟨b', s', hb', hstep⟩ := exists_step_of_lt_total h (Nat.lt_trans hm hn)
    rw [hb] at hb'
    cases hb'
    exact ⟨⟨s, hstep⟩, pick?_lt h hm hb hpick⟩

end Weights

/-! ## Words -/

namespace WordWeights

open Wordwise

variable {row : Row} {before n t : Nat} {c : Char}

@[simp] theorem interval_eq (t : Transition) : interval t = pure t.on := by
  rw [interval, Checked.ofBounds_ends]
  rfl

theorem sumsFrom_eq (h : before + Weights.steps row < 2 ^ 64) :
    sumsFrom (.ofNat before) row = pure ((Weights.sumsFrom before row).map .ofNat) := by
  induction row generalizing before with
  | nil => rfl
  | cons t row ih =>
      rw [Weights.steps_cons] at h
      have hwidth : extent t.on = pure (.ofNat t.width) := extent_eq t.on
      rw [sumsFrom, interval_eq, pure_bind, hwidth, pure_bind, add_ofNat (by omega), pure_bind,
        ih (by omega), pure_bind]
      rfl

/-- The weights of a row as words are its weights as numbers. -/
theorem ofRow_eq (h : row.Ordered) :
    ofRow row = pure ⟨row, (Weights.ofRow row).sums.map .ofNat⟩ := by
  have hsteps := Weights.steps_le h
  have hsums : sumsFrom (.ofNat 0) row = _ := sumsFrom_eq (by omega)
  rw [ofRow, show (0 : UInt64) = .ofNat 0 from rfl, hsums]
  rfl

theorem total_eq (h : row.Ordered) :
    (total ⟨row, (Weights.ofRow row).sums.map .ofNat⟩).toNat = (Weights.ofRow row).total := by
  have hsteps := Weights.steps_le h
  have htotal := Weights.total_ofRow row
  rw [total, show (0 : UInt64) = .ofNat 0 from rfl, List.getLastD_map]
  exact toNat_ofNat (by rw [Weights.total] at htotal; omega)

/-- The search among ascending sums as words is the one among numbers. -/
theorem bisect_sums {sums : List Nat} (h : sums.Pairwise (· ≤ ·))
    (hword : ∀ sum ∈ sums, sum < 2 ^ 64) (hn : n < 2 ^ 64) :
    Checked.bisect (fun sum => decide (sum ≤ .ofNat n)) (sums.map UInt64.ofNat) =
      pure (partitionPoint (fun sum => decide (sum ≤ n)) sums) := by
  have hle : ∀ sum ∈ sums, decide (UInt64.ofNat sum ≤ .ofNat n) = decide (sum ≤ n) :=
    fun sum hsum => decide_eq_decide.2 (ofNat_le_iff (hword sum hsum) hn)
  rw [← Checked.partitionPoint_congr hle,
    ← Checked.partitionPoint_map (fun sum => decide (sum ≤ UInt64.ofNat n)) UInt64.ofNat]
  refine Checked.bisect_eq (List.pairwise_map.2 (h.imp_of_mem fun {x y} hx hy hxy hpass => ?_))
  rw [hle y hy, decide_eq_true_eq] at hpass
  rw [hle x hx, decide_eq_true_eq]
  omega

/-- The sum before an index, as a word and as a number. -/
theorem sumBefore_eq {sums : List Nat} {k : Nat} (hk : k ≤ sums.length) :
    sumBefore ⟨row, sums.map .ofNat⟩ k =
      pure (.ofNat (if k = 0 then 0 else sums.getD (k - 1) 0)) := by
  rw [sumBefore]
  by_cases hzero : k = 0
  · rw [if_pos hzero, if_pos hzero]
    rfl
  · have hlt : k - 1 < sums.length := by omega
    have hget : (sums.map UInt64.ofNat)[k - 1]? = some (.ofNat sums[k - 1]) := by
      rw [List.getElem?_map, List.getElem?_eq_getElem hlt]
      rfl
    rw [if_neg hzero, if_neg hzero, Checked.entry_eq hget, List.getD_eq_getElem?_getD,
      List.getElem?_eq_getElem hlt]
    rfl

/-- The sum before the first that is greater than a number is not greater. -/
theorem sum_before_le {sums : List Nat} (h : sums.Pairwise (· ≤ ·)) (n : Nat) :
    (if partitionPoint (fun sum => decide (sum ≤ n)) sums = 0 then 0
      else sums.getD (partitionPoint (fun sum => decide (sum ≤ n)) sums - 1) 0) ≤ n := by
  obtain ⟨pre, post, rfl, hpoint, hpre, -⟩ :=
    partitionPoint_split (fun sum => decide (sum ≤ n)) (h.imp fun {x y} hxy hy => by
      simp only [decide_eq_true_eq] at hy ⊢
      omega)
  rw [hpoint]
  split
  · exact Nat.zero_le n
  · have hlt : pre.length - 1 < pre.length := by omega
    rw [List.getD_eq_getElem?_getD, List.getElem?_append_left hlt, List.getElem?_eq_getElem hlt]
    simpa using hpre _ (List.getElem_mem hlt)

/-- What is picked by number has its transition, and its place there, by what is found among
the sums. -/
theorem exists_of_pick? (h : (Weights.ofRow row).pick? n = some (c, t)) :
    ∃ k before u, partitionPoint (fun sum => decide (sum ≤ n)) (Weights.sumsFrom 0 row) = k ∧
      (if k = 0 then 0 else (Weights.sumsFrom 0 row).getD (k - 1) 0) = before ∧
      before ≤ n ∧ row[k]? = some u ∧ u.on.nth? (n - before) = some c ∧ u.target = t := by
  obtain ⟨u, hu, hc⟩ := Option.bind_eq_some_iff.1 h
  obtain ⟨c', hc', heq⟩ := Option.map_eq_some_iff.1 hc
  cases heq
  exact ⟨_, _, u, rfl, rfl, sum_before_le (Weights.sumsFrom_ascending 0 row) n, hu, hc', rfl⟩

/-- A number that is found among sums as numbers is found among them as words. -/
theorem pick_eq (h : row.Ordered) (hn : n < 2 ^ 63)
    (hpick : (Weights.ofRow row).pick? n = some (c, t)) :
    pick ⟨row, (Weights.ofRow row).sums.map .ofNat⟩ (.ofNat n) = pure (c, t) := by
  have hsteps := Weights.steps_le h
  have hword : ∀ sum ∈ Weights.sumsFrom 0 row, sum < 2 ^ 64 := by
    intro sum hsum
    have := Weights.mem_sumsFrom hsum
    omega
  have hsearch := bisect_sums (Weights.sumsFrom_ascending 0 row) hword (n := n) (by omega)
  have hlength : partitionPoint (fun sum => decide (sum ≤ n)) (Weights.sumsFrom 0 row) ≤
      (Weights.sumsFrom 0 row).length := (List.takeWhile_sublist _).length_le
  obtain ⟨k, before, u, hk, hbefore, hle, hu, hc, rfl⟩ := exists_of_pick? hpick
  rw [hk] at hsearch hlength
  have hsum : sumBefore ⟨row, _⟩ k = _ := sumBefore_eq hlength
  rw [hbefore] at hsum
  have hlow := toNat_lt u.on.lo
  have hnth : nthIn u.on (.ofNat (n - before)) = pure (some c) := by
    rw [nthIn_eq (by omega), hc]
  have hsums : (Weights.ofRow row).sums = Weights.sumsFrom 0 row := rfl
  simp only [pick, hsums, hsearch, ofChecked_pure, pure_bind, hsum, Checked.entry_eq hu,
    interval_eq, sub_ofNat hle (show n < 2 ^ 64 by omega), hnth]

/-- Whatever ordered row a state has, its weights are made without a sum that is not a word,
and the total is the number of different characters that the row has a step on. A number
below the total is found without a fault: it belongs to the character of the row that has as
many characters of the row before it, and comes with the state that the row leads to on this
character. So the numbers below the total and the steps of the row correspond. -/
theorem choices_exact {row : Row} (h : row.Ordered) :
    ∃ w, ofRow row = pure w ∧
      w.total.toNat = (Weights.ofRow row).total ∧ w.total.toNat = row.domain.ncard ∧
      (∀ n < w.total, ∃ c t, w.pick n = pure (c, t) ∧
        (Weights.ofRow row).pick? n.toNat = some (c, t) ∧ row.step? c = some t ∧
        {b ∈ row.domain | b < c}.ncard = n.toNat) ∧
      Set.BijOn w.pick {n | n < w.total} {x | ∃ c t, row.step? c = some t ∧ x = pure (c, t)} := by
  have htotal := total_eq h
  have hsmall := Weights.steps_le h
  rw [← Weights.total_ofRow] at hsmall
  have hpick : ∀ n < total ⟨row, (Weights.ofRow row).sums.map .ofNat⟩, ∃ c t,
      pick ⟨row, (Weights.ofRow row).sums.map .ofNat⟩ n = pure (c, t) ∧
        (Weights.ofRow row).pick? n.toNat = some (c, t) ∧ row.step? c = some t ∧
        {b ∈ row.domain | b < c}.ncard = n.toNat := by
    intro n hn
    rw [UInt64.lt_iff_toNat_lt, htotal] at hn
    obtain ⟨c, t, hnumber, hstep⟩ := Weights.exists_step_of_lt_total h hn
    have hword := pick_eq h (by omega) hnumber
    rw [UInt64.ofNat_toNat] at hword
    exact ⟨c, t, hword, hnumber, hstep, Weights.ncard_before h hn hnumber⟩
  refine ⟨_, ofRow_eq h, htotal, htotal.trans (Weights.ncard_domain h).symm, hpick, ?_, ?_, ?_⟩
  · intro n hn
    obtain ⟨c, t, hword, -, hstep, -⟩ := hpick n hn
    exact ⟨c, t, hstep, hword⟩
  · intro m hm n hn heq
    obtain ⟨b, s, hword, hnumber, -⟩ := hpick m hm
    obtain ⟨c, t, hword', hnumber', -⟩ := hpick n hn
    rw [hword, hword'] at heq
    cases heq
    exact UInt64.toNat_inj.1 (Weights.pick?_inj h hnumber hnumber')
  · rintro x ⟨c, t, hstep, rfl⟩
    obtain ⟨n, hn, hnumber⟩ := Weights.exists_pick?_of_step? hstep
    refine ⟨.ofNat n, ?_, pick_eq h (by omega) hnumber⟩
    rw [Set.mem_ofPred_eq, UInt64.lt_iff_toNat_lt, htotal, toNat_ofNat (by omega)]
    exact hn

/-- A row with a transition across the surrogate block, which is passed over between the
numbers 2 and 3. -/
theorem choices_exact_acrossGap :
    let row : Row := [⟨⟨'0', '1', by decide⟩, 2⟩, ⟨⟨'\uD7FF', '\uE000', by decide⟩, 1⟩]
    row.Ordered ∧ row.domain.ncard = 4 ∧
      ∃ w, ofRow row = pure w ∧ w.total = 4 ∧
        w.pick 2 = pure ('\uD7FF', 1) ∧ w.pick 3 = pure ('\uE000', 1) := by
  intro row
  have h : row.Ordered := by decide
  obtain ⟨w, hrow, htotal, hcount, hpick, -⟩ := choices_exact h
  have hfour : (Weights.ofRow row).total = 4 := by decide
  rw [hfour] at htotal
  have hword : w.total = 4 := UInt64.toNat_inj.1 htotal
  obtain ⟨c, t, hlast, hc, -⟩ := hpick 2 (by rw [hword]; decide)
  obtain ⟨c', t', hfirst, hc', -⟩ := hpick 3 (by rw [hword]; decide)
  have hend : (Weights.ofRow row).pick? 2 = some ('\uD7FF', 1) := by decide
  have hbegin : (Weights.ofRow row).pick? 3 = some ('\uE000', 1) := by decide
  cases hend.symm.trans hc
  cases hbegin.symm.trans hc'
  exact ⟨h, hcount.symm.trans htotal, w, hrow, hword, hlast, hfirst⟩

end WordWeights

end PatternAutomata
