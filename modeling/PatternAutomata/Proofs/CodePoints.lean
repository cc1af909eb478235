import Mathlib.Algebra.Group.Nat.Defs
import PatternAutomata.Checked.CodePoints
import PatternAutomata.Proofs.IntervalOrder

/-!
# Code points and ordinals

Code points run ahead of ordinals from the surrogate block on (`Scalar.toNat_eq`), and by
this alone what is computed with code points comes to what is computed with ordinals: the
block counts between two characters if it lies between them, and it is passed on the way
from one character to another if the way leads from below it to a place that is not. All
sums on the way are words unless a distance is close to the greatest word.

## Main results

* `Wordwise.count_eq`, `Wordwise.nthAfter_eq_ite`: counting and going on by code points, and
  when going on meets a sum that is not a word.
-/

namespace PatternAutomata

open PatternAutomata.Interval

namespace Scalar

/-- The code point of a character: above the surrogate block it is ahead of the ordinal. -/
theorem toNat_eq (c : Char) :
    c.toNat = if c.ordinal.val < 0xd800 then c.ordinal.val else c.ordinal.val + 0x800 := by
  have hvalid : c.toNat < 0xd800 ∨ (0xdfff < c.toNat ∧ c.toNat < 0x110000) := c.valid
  have hordinal : c.ordinal.val = if c.toNat < 0xd800 then c.toNat else c.toNat - 0x800 :=
    Char.coe_ordinal
  by_cases hlow : c.toNat < 0xd800
  · rw [if_pos hlow] at hordinal
    rw [hordinal, if_pos hlow]
  · rw [if_neg hlow] at hordinal
    rw [hordinal, if_neg (by omega)]
    omega

theorem toNat_cases (c : Char) : (c.ordinal.val < 0xd800 ∧ c.toNat = c.ordinal.val) ∨
    (0xd800 ≤ c.ordinal.val ∧ c.toNat = c.ordinal.val + 0x800) := by
  rw [toNat_eq]
  split <;> omega

/-- One code point comes right after another if the one character does after the other,
unless the surrogate block is between them. -/
theorem toNat_succ_iff {c d : Char} : c.toNat + 1 = d.toNat ↔
    c.ordinal.val + 1 = d.ordinal.val ∧ d.ordinal.val ≠ 0xd800 := by
  rw [toNat_eq, toNat_eq]
  split <;> split <;> omega

end Scalar

namespace Wordwise

variable {a b n : Nat} {c d lo hi : Char}

/-! ## Words -/

@[simp] theorem ofChecked_pure {α : Type} (x : α) : ofChecked (pure x) = pure x := rfl

theorem toNat_ofNat (h : n < 2 ^ 64) : (UInt64.ofNat n).toNat = n :=
  UInt64.toNat_ofNat_of_lt' h

theorem ofNat_lt_iff (ha : a < 2 ^ 64) (hb : b < 2 ^ 64) :
    UInt64.ofNat a < .ofNat b ↔ a < b := by
  rw [UInt64.lt_iff_toNat_lt, toNat_ofNat ha, toNat_ofNat hb]

theorem ofNat_le_iff (ha : a < 2 ^ 64) (hb : b < 2 ^ 64) :
    UInt64.ofNat a ≤ .ofNat b ↔ a ≤ b := by
  rw [UInt64.le_iff_toNat_le, toNat_ofNat ha, toNat_ofNat hb]

theorem add_ofNat (h : a + b < 2 ^ 64) :
    add (.ofNat a) (.ofNat b) = pure (.ofNat (a + b)) := by
  rw [add, toNat_ofNat (by omega), toNat_ofNat (by omega),
    if_pos (show a + b < UInt64.size from h), UInt64.ofNat_add]

theorem add_ofNat_overflow (ha : a < 2 ^ 64) (hb : b < 2 ^ 64) (h : 2 ^ 64 ≤ a + b) :
    add (.ofNat a) (.ofNat b) = throw .overflow := by
  rw [add, toNat_ofNat ha, toNat_ofNat hb,
    if_neg (show ¬ a + b < UInt64.size from Nat.not_lt.2 h)]

theorem sub_ofNat (hle : b ≤ a) (ha : a < 2 ^ 64) :
    sub (.ofNat a) (.ofNat b) = pure (.ofNat (a - b)) := by
  rw [sub, if_pos ((ofNat_le_iff (by omega) ha).2 hle), UInt64.ofNat_sub hle]

/-! ## Code points -/

theorem toNat_lt (c : Char) : c.toNat < 0x110000 := by
  have hvalid : c.toNat < 0xd800 ∨ (0xdfff < c.toNat ∧ c.toNat < 0x110000) := c.valid
  omega

@[simp] theorem codePoint_eq (c : Char) : codePoint c = .ofNat c.toNat := by
  rw [← UInt64.toNat_inj, toNat_ofNat (by have := toNat_lt c; omega)]
  exact UInt32.toNat_toUInt64 c.val

/-- The code points of two characters lie on either side of the surrogate block. -/
theorem around_iff : (codePoint lo < surrogateFirst ∧ surrogateLast < codePoint hi) ↔
    lo.toNat < 0xD800 ∧ 0xDFFF < hi.toNat := by
  have hlo := toNat_lt lo
  have hhi := toNat_lt hi
  rw [codePoint_eq, codePoint_eq]
  exact and_congr (ofNat_lt_iff (b := 0xD800) (by omega) (by omega))
    (ofNat_lt_iff (a := 0xDFFF) (by omega) (by omega))

/-- A way leads from below the surrogate block to a place that is not below it. -/
theorem reaches_iff (hn : n < 2 ^ 64) :
    (codePoint c < surrogateFirst ∧ surrogateFirst ≤ .ofNat n) ↔
      c.toNat < 0xD800 ∧ 0xD800 ≤ n := by
  have hc := toNat_lt c
  rw [codePoint_eq]
  exact and_congr (ofNat_lt_iff (b := 0xD800) (by omega) (by omega))
    (ofNat_le_iff (a := 0xD800) (by omega) hn)

theorem ofCodePoint?_eq_some_iff {n : UInt32} : ofCodePoint? n = some c ↔ c.val = n := by
  rw [ofCodePoint?]
  by_cases h : n.isValidChar
  · rw [dif_pos h, Option.some_inj, Char.ext_iff, eq_comm]
  · rw [dif_neg h]
    constructor
    · intro hc
      cases hc
    · rintro rfl
      exact absurd c.valid h

/-- Counting by code points. -/
@[simp] theorem count_eq (lo hi : Char) : count lo hi = pure (.ofNat (Scalar.count lo hi)) := by
  have hloLt := toNat_lt lo
  have hhiLt := toNat_lt hi
  have hlo := Scalar.toNat_cases lo
  have hhi := Scalar.toNat_cases hi
  rw [count, Scalar.count]
  by_cases h : hi < lo
  · rw [if_pos h]
    rw [Scalar.lt_iff] at h
    rw [show hi.ordinal.val + 1 - lo.ordinal.val = 0 by omega]
    rfl
  · rw [if_neg h]
    rw [Scalar.lt_iff] at h
    have hle : lo.toNat ≤ hi.toNat := by omega
    have hwidth : add (.ofNat (hi.toNat - lo.toNat)) 1 =
        pure (.ofNat (hi.toNat - lo.toNat + 1)) := add_ofNat (b := 1) (by omega)
    rw [codePoint_eq hi, codePoint_eq lo, sub_ofNat hle (by omega), pure_bind, hwidth, pure_bind,
      ← codePoint_eq, ← codePoint_eq]
    by_cases hgap : lo.toNat < 0xD800 ∧ 0xDFFF < hi.toNat
    · have hcount : sub (.ofNat (hi.toNat - lo.toNat + 1)) surrogateCount =
          pure (.ofNat (hi.toNat - lo.toNat + 1 - 0x800)) :=
        sub_ofNat (b := 0x800) (by omega) (by omega)
      rw [if_pos (around_iff.2 hgap), hcount]
      exact congrArg (fun k => pure (UInt64.ofNat k)) (by omega)
    · rw [if_neg (mt around_iff.1 hgap)]
      exact congrArg (fun k => pure (UInt64.ofNat k)) (by omega)

/-- The character at a place, if the place is no word too great. -/
theorem ofPlace_eq_some_iff {place : Nat} (hplace : place < 2 ^ 64) :
    (if lastCodePoint < .ofNat place then none
      else ofCodePoint? (UInt64.ofNat place).toUInt32) = some d ↔ d.toNat = place := by
  have hd := toNat_lt d
  have hlast : lastCodePoint < .ofNat place ↔ 0x10FFFF < place :=
    ofNat_lt_iff (a := 0x10FFFF) (by omega) hplace
  by_cases h : 0x10FFFF < place
  · rw [if_pos (hlast.2 h)]
    constructor
    · intro hnone
      cases hnone
    · intro heq
      omega
  · rw [if_neg (mt hlast.1 h), ofCodePoint?_eq_some_iff, ← UInt32.toNat_inj,
      UInt64.toNat_toUInt32, toNat_ofNat hplace, Char.toNat_val,
      Nat.mod_eq_of_lt (by omega)]

/-- There is no character farther away than there are characters. -/
theorem nthAfter?_eq_none (h : 0x110000 ≤ c.toNat + n) : Scalar.nthAfter? c n = none := by
  rw [Option.eq_none_iff_forall_ne_some]
  intro d hd
  have hordinal := Scalar.nthAfter?_eq_some_iff.1 hd
  have hc := Scalar.toNat_cases c
  have hdCases := Scalar.toNat_cases d
  have hlast := toNat_lt d
  omega

/-- Going on by code points. The sum of code point and distance may be too great for a word,
and then there is no character. The way across the surrogate block may lead from a word to a
number that is none. -/
theorem nthAfter_eq_ite (c : Char) (hn : n < 2 ^ 64) :
    nthAfter c (.ofNat n) =
      if c.toNat < 0xD800 ∧ c.toNat + n < 2 ^ 64 ∧ 2 ^ 64 ≤ c.toNat + n + 0x800 then
        throw .overflow
      else pure (Scalar.nthAfter? c n) := by
  have hc := Scalar.toNat_cases c
  have hlow := toNat_lt c
  by_cases hword : c.toNat + n < 2 ^ 64
  · have hsum : add (codePoint c) (.ofNat n) = pure (.ofNat (c.toNat + n)) := by
      rw [codePoint_eq, add_ofNat hword]
    rw [nthAfter, hsum]
    dsimp only [pure, Except.pure]
    by_cases hgap : c.toNat < 0xD800 ∧ 0xD800 ≤ c.toNat + n
    · rw [if_pos ((reaches_iff hword).2 hgap)]
      by_cases hover : 2 ^ 64 ≤ c.toNat + n + 0x800
      · have hplace : add (.ofNat (c.toNat + n)) surrogateCount = throw .overflow :=
          add_ofNat_overflow (b := 0x800) hword (by omega) hover
        rw [hplace, if_pos ⟨hgap.1, hword, hover⟩]
        rfl
      · have hplace : add (.ofNat (c.toNat + n)) surrogateCount =
            pure (.ofNat (c.toNat + n + 0x800)) := add_ofNat (b := 0x800) (by omega)
        rw [hplace, if_neg (fun h => hover h.2.2)]
        refine congrArg Except.ok (Option.ext fun d => ?_)
        have hd := Scalar.toNat_cases d
        rw [ofPlace_eq_some_iff (by omega), Scalar.nthAfter?_eq_some_iff]
        omega
    · rw [if_neg (mt (reaches_iff hword).1 hgap), if_neg (by omega)]
      refine congrArg Except.ok (Option.ext fun d => ?_)
      have hd := Scalar.toNat_cases d
      rw [ofPlace_eq_some_iff hword, Scalar.nthAfter?_eq_some_iff]
      omega
  · have hsum : add (codePoint c) (.ofNat n) = throw .overflow := by
      rw [codePoint_eq, add_ofNat_overflow (by omega) hn (by omega)]
    rw [nthAfter, hsum, if_neg (fun h => hword h.2.1), nthAfter?_eq_none (by omega)]
    rfl

theorem nthAfter_eq (h : c.toNat + n + 0x800 < 2 ^ 64) :
    nthAfter c (.ofNat n) = pure (Scalar.nthAfter? c n) := by
  rw [nthAfter_eq_ite c (by omega), if_neg (by omega)]

/-! ## Intervals -/

@[simp] theorem extent_eq (i : Interval) : extent i = pure (.ofNat i.size) := count_eq i.lo i.hi

theorem nthIn_eq {i : Interval} (h : i.lo.toNat + n + 0x800 < 2 ^ 64) :
    nthIn i (.ofNat n) = pure (i.nth? n) := by
  rw [nthIn, nthAfter_eq h]
  rfl

end Wordwise

end PatternAutomata
