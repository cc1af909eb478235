/-!
# Succession of characters

A `Char` is a Unicode scalar value: a code point outside the surrogate block
`U+D800 … U+DFFF`. The characters are nevertheless consecutive as far as
intervals of characters are concerned: the neighbour of `U+D7FF` is `U+E000`,
and no character lies between the two.

`Char.ordinal` numbers the characters without a hole, and everything here is
arithmetic on that number: the successor adds one, the predecessor subtracts
one, `count` is a difference and `nthAfter?` a sum. The surrogate block is dealt
with once, in `Char.ordinal`, and nowhere else.

## Main results

* `next?_eq_some_iff`, `previous?_eq_some_iff`, `nthAfter?_eq_some_iff`: each
  operation in terms of ordinals.
* `previous?_eq_some_iff_next?`: predecessor and successor undo each other.
-/

namespace PatternAutomata.Scalar

/-- The least character, `U+0000`. -/
def least : Char := '\x00'

/-- The greatest character, `U+10FFFF`. -/
def greatest : Char := ⟨0x10FFFF, by decide⟩

/-- The character right after `c`, if there is one. -/
def next? (c : Char) : Option Char := c.succ?

/-- The character right before `c`, if there is one. -/
def previous? (c : Char) : Option Char :=
  if c.ordinal.val = 0 then none
  else some (Char.ofOrdinal ⟨c.ordinal.val - 1, by omega⟩)

/-- How many characters `lo, …, hi` there are; none if the bounds are reversed. -/
def count (lo hi : Char) : Nat := hi.ordinal.val + 1 - lo.ordinal.val

/-- The character `n` places after `c`, if there is one. -/
def nthAfter? (c : Char) (n : Nat) : Option Char := c.succMany? n

/-! ## Ordinals as the view of a character -/

theorem ordinal_lt (c : Char) : c.ordinal.val < Char.numCodePoints := c.ordinal.isLt

theorem le_iff {c d : Char} : c ≤ d ↔ c.ordinal.val ≤ d.ordinal.val :=
  Char.le_iff_ordinal_le

theorem lt_iff {c d : Char} : c < d ↔ c.ordinal.val < d.ordinal.val :=
  Char.lt_iff_ordinal_lt

theorem eq_iff {c d : Char} : c = d ↔ c.ordinal.val = d.ordinal.val := by
  rw [← Char.ordinal_inj, Fin.ext_iff]

@[simp] theorem ordinal_least : least.ordinal.val = 0 := by decide

@[simp] theorem ordinal_greatest : greatest.ordinal.val + 1 = Char.numCodePoints := by decide

@[simp] theorem least_le (c : Char) : least ≤ c := by
  rw [le_iff]
  simp

@[simp] theorem le_greatest (c : Char) : c ≤ greatest := by
  have hc := ordinal_lt c
  have hg := ordinal_greatest
  rw [le_iff]
  omega

/-! ## The operations in terms of ordinals -/

theorem next?_eq_some_iff {c d : Char} :
    next? c = some d ↔ d.ordinal.val = c.ordinal.val + 1 := by
  have hd := ordinal_lt d
  simp only [next?, Char.succ?_eq, Option.map_eq_some_iff, Fin.addNat?_eq_some_iff]
  constructor
  · rintro ⟨f, ⟨_, hf⟩, rfl⟩
    simp [hf]
  · intro h
    exact ⟨d.ordinal, ⟨by omega, h⟩, by simp⟩

theorem previous?_eq_some_iff {c d : Char} :
    previous? c = some d ↔ d.ordinal.val + 1 = c.ordinal.val := by
  unfold previous?
  split
  · simp only [reduceCtorEq, false_iff]
    omega
  · rw [Option.some_inj, eq_iff]
    simp only [Char.ordinal_ofOrdinal]
    omega

theorem previous?_eq_some_iff_next? {c d : Char} :
    previous? d = some c ↔ next? c = some d := by
  rw [previous?_eq_some_iff, next?_eq_some_iff]
  omega

theorem nthAfter?_eq_some_iff {c d : Char} {n : Nat} :
    nthAfter? c n = some d ↔ d.ordinal.val = c.ordinal.val + n := by
  have hd := ordinal_lt d
  simp only [nthAfter?, Char.succMany?_eq, Option.map_eq_some_iff, Fin.addNat?_eq_some_iff]
  constructor
  · rintro ⟨f, ⟨_, hf⟩, rfl⟩
    simp [hf]
  · intro h
    exact ⟨d.ordinal, ⟨by omega, h⟩, by simp⟩

end PatternAutomata.Scalar
