import Mathlib.Data.UInt
import PatternAutomata.Proofs.CheckedComposition
import PatternAutomata.Proofs.Numerals

/-!
# The automata of numerals come out without a fault

A window has a digit of each bound that has a say for every position that is left, so the
machine of windows is read without a fault and drawn as it is tabulated.

No arithmetic on words shows in the result. The bounds have ten digits at most, so the
powers of ten that belong to their numbers of digits are words of 64 bits and do not wrap
around. A width may be such that its power of ten is not a word; the greatest word stands
for it, as it does where the bounds are numbers.

## Main results

* `Checked.numerals_eq`: bounds as words and as numbers.
* `Dfa.numerals_exact`: the numerals of a range, with and without a width.
-/

namespace PatternAutomata

open Decimal

namespace Checked

variable {a b : UInt32} {lo hi : UInt64} {width k : Nat}

/-! ## Windows -/

/-- A bound that has a say has a digit for every position that is left. -/
theorem bound_cases {bound : Option (List Nat)}
    (h : ∀ digits ∈ bound, digits.length = width ∧ Decimal.Digits digits) (hwidth : width ≠ 0) :
    bound = none ∨ ∃ d digits, bound = some (d :: digits) := by
  match bound with
  | none => exact .inl rfl
  | some [] => exact absurd (h [] rfl).1.symm hwidth
  | some (d :: digits) => exact .inr ⟨d, digits, rfl⟩

theorem window_reads (first : Dfa.Window) :
    Draft.Reads window first.machine Dfa.Window.Sound := by
  refine ⟨fun v _ => rfl, fun v hv => ?_⟩
  by_cases hwidth : v.width = 0
  · have hnone : first.machine.edges v = [] :=
      congrArg (List.map _) (show v.choices = [] from if_pos hwidth)
    rw [hnone]
    exact if_pos hwidth
  · have hlower : digit v.lower 0 = pure v.first := by
      rcases bound_cases hv.lower hwidth with h | ⟨d, digits, h⟩ <;>
        rw [Dfa.Window.first, h] <;> rfl
    have hupper : digit v.upper 9 = pure v.last := by
      rcases bound_cases hv.upper hwidth with h | ⟨d, digits, h⟩ <;>
        rw [Dfa.Window.last, h] <;> rfl
    have hchoices : v.choices = (List.range (v.last + 1)).drop v.first := if_neg hwidth
    have hedges : first.machine.edges v =
        v.choices.map fun d => (.singleton (Decimal.digitChar d), v.after d) := rfl
    refine (if_neg hwidth).trans ?_
    rw [hlower, pure_bind, hupper, pure_bind, hedges, hchoices]
    refine mapM_eq fun d _ => ?_
    have hchar : singleton (Decimal.digitChar d) = pure (.singleton (Decimal.digitChar d)) :=
      ofBounds_eq rfl rfl
    rw [hchar, pure_bind]
    rfl

/-! ## Powers of ten -/

theorem toNat_tenPow (hk : k ≤ 10) : (tenPow k).toNat = 10 ^ k := by
  have hle : 10 ^ k ≤ 10 ^ 10 := Nat.pow_le_pow_right (by omega) hk
  have hmod : (tenPow k).toNat = 10 ^ k % 2 ^ 64 := UInt64.toNat_ofNat'
  rw [hmod, Nat.mod_eq_of_lt (by omega)]

/-- The greatest number of `k` digits. -/
theorem toNat_tenPow_sub_one (hk : k ≤ 10) : (tenPow k - 1).toNat = 10 ^ k - 1 := by
  have hpos : 0 < 10 ^ k := Nat.pow_pos (by omega)
  have hone : (1 : UInt64) ≤ tenPow k := by
    rw [UInt64.le_iff_toNat_le, toNat_tenPow hk]
    exact hpos
  rw [UInt64.toNat_sub_of_le _ _ hone, toNat_tenPow hk]
  rfl

/-- The least number of `k` digits. -/
theorem toNat_least (hk : k ≤ 10) :
    (if k = 1 then 0 else tenPow (k - 1)).toNat = Dfa.leastOfLength k := by
  rw [Dfa.leastOfLength]
  by_cases h : k = 1
  · rw [if_pos h, if_pos h]
    rfl
  · rw [if_neg h, if_neg h, toNat_tenPow (by omega)]

@[simp] theorem toNat_greatestOfWidth (width : Nat) :
    (greatestOfWidth width).toNat = Decimal.greatestOfWidth width := by
  have hword : (greatestOfWidth width).toNat =
      (min (10 ^ (UInt32.ofNat width).toNat) (2 ^ 64 - 1) - 1) % 2 ^ 64 :=
    UInt64.toNat_ofNat'
  rw [hword, UInt32.toNat_ofNat', Nat.mod_eq_of_lt (by omega), greatestOfWidth_eq]

/-! ## Bounds as words and as numbers -/

theorem fixedWidth_eq (hwidth : 0 < width) (lo hi : UInt64) :
    fixedWidth width lo hi = pure (.fixedWidth width lo.toNat hi.toNat) := by
  have hmin : (min hi (greatestOfWidth width)).toNat =
      min hi.toNat (Decimal.greatestOfWidth width) := by
    rw [UInt64.toNat_min, toNat_greatestOfWidth]
  by_cases hlt : min hi.toNat (Decimal.greatestOfWidth width) < lo.toNat
  · have hwords : min hi (greatestOfWidth width) < lo := by
      rwa [UInt64.lt_iff_toNat_lt, hmin]
    rw [Dfa.fixedWidth_of_lt hlt]
    exact if_pos hwords
  · have hwords : ¬ min hi (greatestOfWidth width) < lo := by
      rwa [UInt64.lt_iff_toNat_lt, hmin]
    let w := Dfa.outset width lo.toNat (min hi.toNat (Decimal.greatestOfWidth width))
    have hsound : w.Sound := Dfa.sound_outset_min hwidth hlt
    have hexpand := Draft.expand_eq (window_reads w)
      (fun v hv => Draft.draws_insertRow hv.ascending)
      (fun _ hv _ hl => hv.of_mem_successors hl)
      (fun _ _ hl => Dfa.Window.width_lt_of_mem_successors hl) hsound (Nat.le_refl _)
    rw [Dfa.fixedWidth_of_le hlt]
    refine (if_neg hwords).trans ?_
    rw [hmin]
    exact congrArg (· >>= fun x => pure x.dfa) hexpand

theorem ofLength?_eq (hpos : 0 < k) (hk : k ≤ 10) :
    ofLength? lo hi k = pure (Dfa.ofLength? lo.toNat hi.toNat k) := by
  have hlo : (max lo (if k = 1 then 0 else tenPow (k - 1))).toNat =
      max lo.toNat (Dfa.leastOfLength k) := by
    rw [UInt64.toNat_max, toNat_least hk]
  have hhi : (min hi (tenPow k - 1)).toNat = min hi.toNat (10 ^ k - 1) := by
    rw [UInt64.toNat_min, toNat_tenPow_sub_one hk]
  rw [ofLength?, Dfa.ofLength?]
  by_cases hle : max lo.toNat (Dfa.leastOfLength k) ≤ min hi.toNat (10 ^ k - 1)
  · have hwords : max lo (if k = 1 then 0 else tenPow (k - 1)) ≤ min hi (tenPow k - 1) := by
      rwa [UInt64.le_iff_toNat_le, hlo, hhi]
    refine ((if_pos hwords).trans ?_).trans (congrArg pure (if_pos hle)).symm
    rw [fixedWidth_eq hpos, hlo, hhi]
    rfl
  · have hwords : ¬ max lo (if k = 1 then 0 else tenPow (k - 1)) ≤ min hi (tenPow k - 1) := by
      rwa [UInt64.le_iff_toNat_le, hlo, hhi]
    exact (if_neg hwords).trans (congrArg pure (if_neg hle)).symm

/-- The automaton for two words is the one for the numbers. -/
@[simp] theorem numerals_eq (a b : UInt32) (width : Nat) :
    numerals a b width = pure (.numerals a.toNat b.toNat width) := by
  have hlo : (min a b).toUInt64.toNat = min a.toNat b.toNat := by
    rw [UInt32.toNat_toUInt64, UInt32.toNat_min]
  have hhi : (max a b).toUInt64.toNat = max a.toNat b.toNat := by
    rw [UInt32.toNat_toUInt64, UInt32.toNat_max]
  have hten : length (max a b).toUInt64.toNat ≤ 10 := by
    rw [UInt32.toNat_toUInt64]
    exact length_word_le (max a b).toNat_lt
  rw [Dfa.numerals_eq, ← hlo, ← hhi]
  by_cases hzero : width = 0
  · have hlengths : ((List.range (length (max a b).toUInt64.toNat)).map (· + 1)).filterMapM
        (ofLength? (min a b).toUInt64 (max a b).toUInt64) =
          pure (Dfa.ofLengths (min a b).toUInt64.toNat (max a b).toUInt64.toNat) := by
      refine filterMapM_eq fun k hk => ?_
      obtain ⟨j, hj, rfl⟩ := List.mem_map.1 hk
      have hlt : j < length (max a b).toUInt64.toNat := List.mem_range.1 hj
      exact ofLength?_eq (by omega) (by omega)
    rw [if_pos hzero]
    refine (if_pos hzero).trans ?_
    rw [hlengths, pure_bind, ofRange_eq, pure_bind, star_eq (Dfa.wellFormed_ofRange '0' '0'),
      pure_bind, union_eq (Dfa.wellFormed_ofLengths _ _), pure_bind]
    exact concat_eq (Dfa.zeros_operands _ _)
  · rw [if_neg hzero]
    refine (if_neg hzero).trans ?_
    exact fixedWidth_eq (by omega) _ _

end Checked

namespace Dfa

/-- Whatever two words the bounds are and in whichever order, the automaton for them is
made without a fault. Without a width it accepts the texts of digits, with any number of
zeros in front, whose numbers lie between the bounds; with a width it accepts those among
them that have as many digits as the width says, or as the greater bound needs. -/
theorem numerals_exact (a b : UInt32) {width : Nat} (hwidth : width < 2 ^ 32) :
    ∃ d, Checked.numerals a b width = pure d ∧ numerals a.toNat b.toNat width = d ∧
      (width = 0 → ∀ w, d.accepts w = true ↔
        w ≠ [] ∧ (∀ c ∈ w, '0' ≤ c ∧ c ≤ '9') ∧
          (min a b).toNat ≤ read w ∧ read w ≤ (max a b).toNat) ∧
      (0 < width → ∀ w, d.accepts w = true ↔
        w.length = max width (length (max a b).toNat) ∧ (∀ c ∈ w, '0' ≤ c ∧ c ≤ '9') ∧
          (min a b).toNat ≤ read w ∧ read w ≤ (max a b).toNat) := by
  have hlanguage : ∀ w, (numerals a.toNat b.toNat width).accepts w = true ↔
      w ≠ [] ∧ (∀ c ∈ w, '0' ≤ c ∧ c ≤ '9') ∧
        (min a b).toNat ≤ read w ∧ read w ≤ (max a b).toNat ∧
        (width ≠ 0 → w.length = max width (length (max a b).toNat)) := by
    intro w
    rw [← mem_language, language_numerals, computed_eq a.toNat_lt b.toNat_lt hwidth,
      UInt32.toNat_min, UInt32.toNat_max]
    simp only [Decimal.language, CharClass.isDigit, decide_eq_true_eq]
    rfl
  refine ⟨_, Checked.numerals_eq a b width, rfl, fun hzero w => ?_, fun hpos w => ?_⟩
  · rw [hlanguage]
    simp only [hzero, ne_eq, not_true_eq_false, false_imp_iff, and_true]
  · have hlength := length_pos (max a b).toNat
    rw [hlanguage]
    constructor
    · intro h
      obtain ⟨-, hdigits, hlo, hhi, hw⟩ := h
      exact ⟨hw (by omega), hdigits, hlo, hhi⟩
    · intro h
      obtain ⟨hw, hdigits, hlo, hhi⟩ := h
      have hne : w ≠ [] := by
        apply List.ne_nil_of_length_pos
        omega
      exact ⟨hne, hdigits, hlo, hhi, fun _ => hw⟩

/-- The greatest word, with zeros in front of it, and a range that ends with it where a
width asks for more digits than a word of 64 bits has. -/
theorem numerals_exact_greatestWord :
    0 < 2 ^ 32 ∧ 25 < 2 ^ 32 ∧
    (numerals 4294967295 99 0).accepts "0004294967295".toList = true ∧
    ¬ (numerals 4294967295 99 0).accepts "4294967296".toList = true ∧
    (numerals 4294967295 99 25).accepts "0000000000000000000000100".toList = true ∧
    ¬ (numerals 4294967295 99 25).accepts "100".toList = true := by
  have hzero : 0 < 2 ^ 32 := by omega
  have hwidth : 25 < 2 ^ 32 := by omega
  have hleast : (min (4294967295 : UInt32) 99).toNat = 99 := rfl
  have hgreatest : (max (4294967295 : UInt32) 99).toNat = 4294967295 := rfl
  have hlength : max 25 (length 4294967295) = 25 := by decide +kernel
  obtain ⟨d, -, rfl, hany, -⟩ := numerals_exact 4294967295 99 hzero
  obtain ⟨e, -, rfl, -, hwide⟩ := numerals_exact 4294967295 99 hwidth
  rw [hleast, hgreatest] at hany hwide
  rw [hlength] at hwide
  refine ⟨hzero, hwidth, ?_, fun h => ?_, ?_, fun h => ?_⟩
  · have hdigits : ∀ c ∈ "0004294967295".toList, '0' ≤ c ∧ c ≤ '9' := by simp
    exact (hany rfl _).2 ⟨by decide, hdigits, by decide +kernel, by decide +kernel⟩
  · have hle : 4294967296 ≤ 4294967295 := ((hany rfl _).1 h).2.2.2
    omega
  · have hdigits : ∀ c ∈ "0000000000000000000000100".toList, '0' ≤ c ∧ c ≤ '9' := by simp
    exact (hwide (by omega) _).2 ⟨rfl, hdigits, by decide +kernel, by decide +kernel⟩
  · have hthree : 3 = 25 := ((hwide (by omega) _).1 h).1
    omega

end Dfa

end PatternAutomata
