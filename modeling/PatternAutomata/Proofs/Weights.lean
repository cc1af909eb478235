import Mathlib.Algebra.GroupWithZero.Nat
import PatternAutomata.Generator.Walk
import PatternAutomata.Proofs.Rows

/-!
# The numbers of the steps of a state

Finding a number among the sums of widths is the same as passing the transitions one by
one and subtracting their widths (`nthStep?`). So the numbers below the total are those
of the characters that the row has a step on, each character having one number.

## Main results

* `pick?_ofRow`: the search among the sums.
* `exists_step_of_lt_total`, `exists_pick?_of_step?`, `pick?_inj`: the numbers below the
  total and the characters correspond.
* `pick?_lt`: the characters are numbered in ascending order.
* `total_le`: a row leads on with each character at most once.
-/

namespace PatternAutomata

open PatternAutomata.Interval

namespace Weights

variable {row : Row} {c : Char} {m n t : Nat}

/-- The step with a number, found by passing one transition after the other. -/
def nthStep? : Row → Nat → Option (Char × Nat)
  | [], _ => none
  | t :: row, n =>
    if n < t.width then (t.on.nth? n).map fun c => (c, t.target)
    else nthStep? row (n - t.width)

/-- The number of steps of a row. -/
def steps (row : Row) : Nat := (row.map Transition.width).sum

@[simp] theorem steps_cons (t : Transition) (row : Row) :
    steps (t :: row) = t.width + steps row := rfl

@[simp] theorem getLastD_sumsFrom (before : Nat) (row : Row) :
    (sumsFrom before row).getLastD before = before + steps row := by
  induction row generalizing before with
  | nil => rfl
  | cons t row ih =>
      rw [sumsFrom, List.getLastD_cons, ih, steps_cons, Nat.add_assoc]

@[simp] theorem total_ofRow (row : Row) : (ofRow row).total = steps row := by
  have h := getLastD_sumsFrom 0 row
  rwa [Nat.zero_add] at h

/-- The search among sums that begin with a given number. -/
theorem search_sumsFrom {before : Nat} (h : before ≤ n) :
    ((row[((sumsFrom before row).takeWhile (· ≤ n)).length]?).bind fun t =>
      (t.on.nth? (n - (before :: sumsFrom before row).getD
        ((sumsFrom before row).takeWhile (· ≤ n)).length 0)).map fun c => (c, t.target)) =
      nthStep? row (n - before) := by
  induction row generalizing before with
  | nil => rfl
  | cons t row ih =>
      rw [sumsFrom, nthStep?]
      by_cases hn : before + t.width ≤ n
      · rw [List.takeWhile_cons_of_pos (by simpa using hn), List.length_cons,
          List.getElem?_cons_succ, List.getD_cons_succ, ih hn, if_neg (by omega),
          Nat.sub_add_eq]
      · rw [List.takeWhile_cons_of_neg (by simpa using hn), if_pos (by omega)]
        rfl

theorem sum_before_eq (sums : List Nat) (k : Nat) :
    (if k = 0 then 0 else sums.getD (k - 1) 0) = (0 :: sums).getD k 0 := by
  cases k with
  | zero => rfl
  | succ k => rfl

/-- The search among the sums passes the transitions one by one. -/
@[simp] theorem pick?_ofRow (row : Row) (n : Nat) : (ofRow row).pick? n = nthStep? row n := by
  have h := (search_sumsFrom (Nat.zero_le n) : _ = nthStep? row (n - 0))
  rw [Nat.sub_zero] at h
  refine Eq.trans ?_ h
  exact congrArg (fun before =>
    (row[((sumsFrom 0 row).takeWhile (· ≤ n)).length]?).bind fun t =>
      (t.on.nth? (n - before)).map fun c => (c, t.target)) (sum_before_eq _ _)

theorem nthStep?_cons_of_lt {t : Transition} (h : n < t.width) :
    nthStep? (t :: row) n = (t.on.nth? n).map fun c => (c, t.target) := by
  rw [nthStep?, if_pos h]

theorem nthStep?_cons_add (t : Transition) (row : Row) (n : Nat) :
    nthStep? (t :: row) (t.width + n) = nthStep? row n := by
  rw [nthStep?, if_neg (by omega), Nat.add_sub_cancel_left]

/-- What has a number is a step. -/
theorem mem_of_nthStep? (h : nthStep? row n = some (c, t)) :
    ∃ u ∈ row, c ∈ u.on ∧ u.target = t := by
  induction row generalizing n with
  | nil => cases h
  | cons u row ih =>
      rw [nthStep?] at h
      by_cases hn : n < u.width
      · rw [if_pos hn, Option.map_eq_some_iff] at h
        obtain ⟨c', hc', heq⟩ := h
        cases heq
        exact ⟨u, by simp, (nth?_eq_some_iff.1 hc').2, rfl⟩
      · rw [if_neg hn] at h
        obtain ⟨v, hv, hc, ht⟩ := ih h
        exact ⟨v, List.mem_cons_of_mem u hv, hc, ht⟩

/-- Each number below the total is that of a step. -/
theorem exists_step_of_lt_total (h : row.Ordered) (hn : n < (ofRow row).total) :
    ∃ c t, (ofRow row).pick? n = some (c, t) ∧ row.step? c = some t := by
  rw [total_ofRow] at hn
  rw [pick?_ofRow]
  have hpick : ∃ p, nthStep? row n = some p := by
    clear h
    induction row generalizing n with
    | nil => exact absurd hn (Nat.not_lt_zero n)
    | cons u row ih =>
        rw [steps_cons] at hn
        by_cases hlt : n < u.width
        · obtain ⟨c, hc, -⟩ := exists_nth? hlt
          exact ⟨(c, u.target), by rw [nthStep?_cons_of_lt hlt, hc]; rfl⟩
        · obtain ⟨p, hp⟩ := ih (n := n - u.width) (by omega)
          exact ⟨p, by rw [nthStep?, if_neg hlt, hp]⟩
  obtain ⟨⟨c, t⟩, hct⟩ := hpick
  exact ⟨c, t, hct, (Row.step?_eq_some_iff h).2 (mem_of_nthStep? hct)⟩

/-- Each step has a number below the total. -/
theorem exists_pick?_of_step? (h : row.step? c = some t) :
    ∃ n < (ofRow row).total, (ofRow row).pick? n = some (c, t) := by
  simp
  obtain ⟨u, hu, hc, rfl⟩ := Row.exists_mem_of_step? h
  clear h
  induction row with
  | nil => cases hu
  | cons v row ih =>
      rw [steps_cons]
      rcases List.mem_cons.1 hu with rfl | hu
      · obtain ⟨n, hn, hnth⟩ := exists_nth?_of_mem hc
        have hlt : n < u.width := hn
        exact ⟨n, by omega, by rw [nthStep?_cons_of_lt hlt, hnth]; rfl⟩
      · obtain ⟨n, hn, hnth⟩ := ih hu
        exact ⟨v.width + n, by omega, by rw [nthStep?_cons_add, hnth]⟩

/-- What has a number in a row has it in the first interval or behind that. -/
theorem nthStep?_cons_cases {u : Transition} (h : nthStep? (u :: row) n = some (c, t)) :
    (n < u.width ∧ c.ordinal.val = u.on.bottom + n ∧ c ∈ u.on) ∨
      (u.width ≤ n ∧ nthStep? row (n - u.width) = some (c, t)) := by
  by_cases hn : n < u.width
  · rw [nthStep?_cons_of_lt hn, Option.map_eq_some_iff] at h
    obtain ⟨c', hc', heq⟩ := h
    cases heq
    exact Or.inl ⟨hn, nth?_eq_some_iff.1 hc'⟩
  · rw [nthStep?, if_neg hn] at h
    exact Or.inr ⟨by omega, h⟩

/-- Characters are numbered in ascending order. -/
theorem pick?_lt (h : row.Ordered) {b : Char} {s : Nat} (hmn : m < n)
    (hm : (ofRow row).pick? m = some (b, s)) (hn : (ofRow row).pick? n = some (c, t)) :
    b < c := by
  rw [pick?_ofRow] at hm hn
  rw [Scalar.lt_iff]
  induction row generalizing m n with
  | nil => cases hm
  | cons u row ih =>
      obtain ⟨hbefore, hrow⟩ := Row.ordered_cons.1 h
      rcases nthStep?_cons_cases hm with ⟨hmu, hb, hbu⟩ | ⟨hmu, hm⟩
      · rcases nthStep?_cons_cases hn with ⟨-, hc, -⟩ | ⟨-, hn⟩
        · omega
        · obtain ⟨v, hv, hcv, -⟩ := mem_of_nthStep? hn
          have hbelow := before_iff.1 (hbefore v hv)
          have hbu := mem_iff.1 hbu
          have hcv := mem_iff.1 hcv
          omega
      · rcases nthStep?_cons_cases hn with ⟨hnu, -⟩ | ⟨-, hn⟩
        · omega
        · exact ih hrow (by omega) hm hn

/-- A character has one number only. -/
theorem pick?_inj (h : row.Ordered) {t' : Nat} (hm : (ofRow row).pick? m = some (c, t))
    (hn : (ofRow row).pick? n = some (c, t')) : m = n := by
  rcases Nat.lt_trichotomy m n with hlt | heq | hlt
  · exact absurd (pick?_lt h hlt hm hn) (Char.lt_irrefl c)
  · exact heq
  · exact absurd (pick?_lt h hlt hn hm) (Char.lt_irrefl c)

theorem total_ne_zero_of_step? (h : row.step? c = some t) : (ofRow row).total ≠ 0 := by
  obtain ⟨n, hn, -⟩ := exists_pick?_of_step? h
  omega

/-- A row that begins at some number has as many steps as there are characters from there
on, or fewer. -/
theorem steps_add_le {row : Row} {k : Nat} (h : row.Ordered) (hk : k ≤ Char.numCodePoints)
    (hfrom : ∀ t ∈ row, k ≤ t.on.bottom) : steps row + k ≤ Char.numCodePoints := by
  induction row generalizing k with
  | nil => simpa [steps] using hk
  | cons t row ih =>
      obtain ⟨hbefore, hrow⟩ := Row.ordered_cons.1 h
      have hle := t.on.bottom_le_top
      have htop : t.on.top < Char.numCodePoints := Scalar.ordinal_lt t.on.hi
      have hlater : ∀ u ∈ row, t.on.top + 1 ≤ u.on.bottom :=
        fun u hu => before_iff.1 (hbefore u hu)
      have hrest := ih hrow htop hlater
      have hfirst := hfrom t (List.mem_cons_self ..)
      have hwidth : t.width = t.on.top + 1 - t.on.bottom := size_eq t.on
      rw [steps_cons]
      omega

/-- A row leads on with each character at most once. -/
theorem total_le {row : Row} (h : row.Ordered) : (ofRow row).total ≤ Char.numCodePoints := by
  rw [total_ofRow]
  exact steps_add_le h (Nat.zero_le _) fun t _ => Nat.zero_le _

end Weights

end PatternAutomata
