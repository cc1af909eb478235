import Mathlib.Tactic.Ring
import PatternAutomata.Decimal

/-!
# Decimal notation and numbers

Digit lists of one length correspond to the numbers below a power of ten, and their
lexicographic order is that of the numbers. So a digit list is what padding makes of its
number, and the number of digits of a number tells which powers of ten it is below.

## Main results

* `value_cons_le_iff`: comparing digit lists by their first digits.
* `value_padded`, `padded_value`: numbers and digit lists of a given length.
* `length_le_iff`: the number of digits.
* `greatestOfWidth_lt`, `le_greatestOfWidth`: the greatest number of a width.
* `read_render`: reading what was written.
-/

namespace PatternAutomata.Decimal

variable {d e k m n width : Nat} {ds es : List Nat}

/-! ## The number of a digit list -/

theorem foldl_eq (ds : List Nat) (n : Nat) :
    ds.foldl (fun n d => 10 * n + d) n = n * 10 ^ ds.length + value ds := by
  induction ds generalizing n with
  | nil => simp [value]
  | cons d ds ih =>
      have hvalue : value (d :: ds) = (10 * 0 + d) * 10 ^ ds.length + value ds := ih _
      rw [List.foldl_cons, ih, hvalue, List.length_cons]
      ring

theorem value_cons (d : Nat) (ds : List Nat) :
    value (d :: ds) = d * 10 ^ ds.length + value ds := by
  rw [value, List.foldl_cons, foldl_eq, Nat.mul_zero, Nat.zero_add]

theorem value_append (ds es : List Nat) :
    value (ds ++ es) = value ds * 10 ^ es.length + value es := by
  rw [value, List.foldl_append, foldl_eq]
  rfl

@[simp] theorem value_replicate_append (k : Nat) (ds : List Nat) :
    value (List.replicate k 0 ++ ds) = value ds := by
  induction k with
  | zero => rfl
  | succ k ih => rw [List.replicate_succ, List.cons_append, value_cons, ih]; omega

theorem value_lt (h : Digits ds) : value ds < 10 ^ ds.length := by
  induction ds with
  | nil => simp [value]
  | cons d ds ih =>
      obtain ⟨hd, hds⟩ := digits_cons_iff.1 h
      have hrest := ih hds
      have hle : (d + 1) * 10 ^ ds.length ≤ 10 * 10 ^ ds.length :=
        Nat.mul_le_mul_right _ hd
      rw [value_cons, List.length_cons, Nat.pow_succ, Nat.mul_comm (10 ^ ds.length)]
      rw [Nat.add_mul] at hle
      omega

/-- The first digits decide, and if they agree, the other digits do. -/
theorem value_cons_le_iff (hds : Digits ds) (hes : Digits es)
    (hlength : ds.length = es.length) :
    value (d :: ds) ≤ value (e :: es) ↔ d < e ∨ (d = e ∧ value ds ≤ value es) := by
  have h1 := value_lt hds
  have h2 := value_lt hes
  rw [value_cons, value_cons, hlength]
  rw [hlength] at h1
  rcases Nat.lt_trichotomy d e with hlt | heq | hgt
  · have hle : (d + 1) * 10 ^ es.length ≤ e * 10 ^ es.length := Nat.mul_le_mul_right _ hlt
    rw [Nat.add_mul] at hle
    omega
  · subst heq
    omega
  · have hle : (e + 1) * 10 ^ es.length ≤ d * 10 ^ es.length := Nat.mul_le_mul_right _ hgt
    rw [Nat.add_mul] at hle
    omega

/-- Digit lists of one length are determined by their numbers. -/
theorem eq_of_value_eq (hds : Digits ds) (hes : Digits es)
    (hlength : ds.length = es.length) (heq : value ds = value es) : ds = es := by
  induction ds generalizing es with
  | nil => exact (List.length_eq_zero_iff.1 hlength.symm).symm
  | cons d ds ih =>
      cases es with
      | nil => cases hlength
      | cons e es =>
          obtain ⟨-, hds⟩ := digits_cons_iff.1 hds
          obtain ⟨-, hes⟩ := digits_cons_iff.1 hes
          have hlen : ds.length = es.length := Nat.succ.inj hlength
          have h1 := (value_cons_le_iff hds hes hlen).1 (Nat.le_of_eq heq)
          have h2 := (value_cons_le_iff hes hds hlen.symm).1 (Nat.le_of_eq heq.symm)
          have hde : d = e := by omega
          have hvalue : value ds = value es := by omega
          rw [hde, ih hds hes hlen hvalue]

/-! ## The digits of a number -/

@[simp] theorem value_digits (n : Nat) : value (digits n) = n := by
  induction n using digits.induct with
  | case1 n hn =>
      rw [digits, if_pos hn, value_cons]
      simp [value]
  | case2 n hn ih =>
      rw [digits, if_neg hn, value_append, ih, value_cons]
      simp only [List.length_singleton, Nat.pow_one, List.length_nil, Nat.pow_zero, value,
        List.foldl_nil]
      omega

/-- A number has at most `k` digits if it is below the `k`-th power of ten. -/
theorem length_le_iff (hk : 0 < k) : length n ≤ k ↔ n < 10 ^ k := by
  induction k generalizing n with
  | zero => omega
  | succ k ih =>
      unfold length
      rw [digits]
      by_cases hn : n < 10
      · rw [if_pos hn, List.length_singleton]
        refine iff_of_true (by omega) (Nat.lt_of_lt_of_le hn ?_)
        rw [Nat.pow_succ]
        have := Nat.pow_pos (n := k) (show 0 < 10 by omega)
        omega
      · rw [if_neg hn, List.length_append, List.length_singleton, Nat.add_le_add_iff_right,
          Nat.pow_succ]
        by_cases hk' : 0 < k
        · rw [← length, ih hk', Nat.div_lt_iff_lt_mul (by omega)]
        · have hk0 : k = 0 := by omega
          have := length_pos (n / 10)
          rw [← length, hk0]
          omega

/-- A word of 32 bits has ten digits at most. -/
theorem length_word_le (hn : n < 2 ^ 32) : length n ≤ 10 := by
  rw [length_le_iff (by omega)]
  omega

theorem length_mono (h : m ≤ n) : length m ≤ length n :=
  (length_le_iff (length_pos n)).2
    (Nat.lt_of_le_of_lt h ((length_le_iff (length_pos n)).1 (Nat.le_refl _)))

theorem lt_pow_length (n : Nat) : n < 10 ^ length n :=
  (length_le_iff (length_pos n)).1 (Nat.le_refl _)

/-! ## Padding -/

@[simp] theorem value_padded (width n : Nat) : value (padded width n) = n := by
  simp [padded]

/-- A digit list is its number, padded to its length. -/
theorem padded_value (h : Digits ds) (hne : ds ≠ []) : padded ds.length (value ds) = ds := by
  have hlength : length (value ds) ≤ ds.length :=
    (length_le_iff (List.length_pos_iff.2 hne)).2 (value_lt h)
  apply eq_of_value_eq (digits_padded _ _) h
  · rw [length_padded]
    omega
  · exact value_padded _ _

/-! ## Numbers of a width -/

/-- In terms of the power of ten that is cut down to a word. -/
theorem greatestOfWidth_eq (width : Nat) :
    greatestOfWidth width = min (10 ^ (width % 2 ^ 32)) (2 ^ 64 - 1) - 1 := by
  rw [show greatestOfWidth width = if width % 2 ^ 32 < 20 then 10 ^ (width % 2 ^ 32) - 1
    else 2 ^ 64 - 1 - 1 from rfl]
  by_cases h : width % 2 ^ 32 < 20
  · have hle : 10 ^ (width % 2 ^ 32) ≤ 10 ^ 19 := Nat.pow_le_pow_right (by omega) (by omega)
    rw [if_pos h, Nat.min_eq_left (by omega)]
  · have hle : 10 ^ 20 ≤ 10 ^ (width % 2 ^ 32) := Nat.pow_le_pow_right (by omega) (by omega)
    rw [if_neg h, Nat.min_eq_right (by omega)]

/-- The greatest number of a width has no more digits. -/
theorem greatestOfWidth_lt (width : Nat) : greatestOfWidth width < 10 ^ width := by
  have hpow : 10 ^ (width % 2 ^ 32) ≤ 10 ^ width :=
    Nat.pow_le_pow_right (by omega) (Nat.mod_le _ _)
  have hpos : 0 < 10 ^ (width % 2 ^ 32) := Nat.pow_pos (by omega)
  rw [greatestOfWidth_eq]
  omega

/-- For a width that is a word, only numbers of more digits and words that are too great
are beyond the greatest number. -/
theorem le_greatestOfWidth (hwidth : width < 2 ^ 32) (hword : n < 2 ^ 64 - 1)
    (hn : length n ≤ width) : n ≤ greatestOfWidth width := by
  have hlt : n < 10 ^ width := (length_le_iff (Nat.lt_of_lt_of_le (length_pos n) hn)).1 hn
  rw [greatestOfWidth_eq, Nat.mod_eq_of_lt hwidth]
  omega

/-! ## Reading -/

theorem read_map_digitChar (h : Digits ds) : read (ds.map digitChar) = value ds := by
  rw [read, List.map_map]
  congr 1
  refine (List.map_congr_left fun d hd => ?_).trans ds.map_id
  exact digitOf_digitChar (h d hd)

/-- A text of digits is at least as long as the number that it reads. -/
theorem length_read_le {w : List Char} (h : ∀ c ∈ w, CharClass.isDigit c = true)
    (hne : w ≠ []) : length (read w) ≤ w.length := by
  obtain ⟨ds, hds, rfl⟩ := exists_digits_iff.1 h
  rw [length_le_iff (List.length_pos_iff.2 hne), read_map_digitChar hds, List.length_map]
  exact value_lt hds

@[simp] theorem read_render (width n : Nat) : read (render width n) = n := by
  rw [render, read_map_digitChar (digits_padded width n), value_padded]

end PatternAutomata.Decimal
