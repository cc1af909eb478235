import Mathlib.Data.Char
import Mathlib.Data.Set.Card
import Mathlib.Logic.Function.Iterate
import Mathlib.Order.Fin.Basic
import PatternAutomata.Proofs.CodePoints

/-!
# Counting, indexing and succession

The surrogate block turns up in each computation with code points in another way: stepping
over it has a case for the character on its edge, counting takes the block off, and going on
puts it on. All of them are of one succession. A step by code points is the step by ordinals,
and as many steps as a number says come to the place that this number of ordinals comes to.
So an interval is numbered by the steps from its lower end, in ascending order and without a
gap, and its extent is how many characters are numbered.

## Main results

* `Wordwise.successor?_eq`, `Wordwise.predecessor?_eq`: the neighbours of a character.
* `Scalar.nthAfter?_eq_iterate`: going on is taking single steps.
* `Wordwise.succession_exact`: what an interval is asked for its characters by words.
-/

namespace PatternAutomata

open PatternAutomata.Interval

/-! ## Single steps and many -/

namespace Scalar

/-- The character one place further on is the neighbour. -/
theorem nthAfter?_succ (c : Char) (n : Nat) :
    nthAfter? c (n + 1) = nthAfter? c n >>= next? := by
  refine Option.ext fun d => ?_
  rw [nthAfter?_eq_some_iff, Option.bind_eq_bind, Option.bind_eq_some_iff]
  constructor
  · intro h
    obtain ⟨b, hb⟩ := exists_ordinal_eq (show c.ordinal.val + n ≤ d.ordinal.val by omega)
    exact ⟨b, nthAfter?_eq_some_iff.2 hb, next?_eq_some_iff.2 (by omega)⟩
  · rintro ⟨b, hb, hd⟩
    rw [nthAfter?_eq_some_iff] at hb
    rw [next?_eq_some_iff] at hd
    omega

/-- Going on by a number of places is taking as many steps. -/
theorem nthAfter?_eq_iterate (c : Char) (n : Nat) :
    nthAfter? c n = (· >>= next?)^[n] (some c) := by
  induction n with
  | zero => exact nthAfter?_eq_some_iff.2 rfl
  | succ n ih => rw [nthAfter?_succ, ih, Function.iterate_succ_apply']

end Scalar

namespace Wordwise

variable {c d : Char}

theorem val_eq_iff {k : UInt32} : c.val = k ↔ c.toNat = k.toNat := UInt32.toNat_inj.symm

/-- The next code point is that of a character, or of none. -/
theorem sum?_bind_eq_some_iff :
    (sum? c.val 1).bind ofCodePoint? = some d ↔ c.toNat + 1 = d.toNat := by
  have hc := toNat_lt c
  have hsum : sum? c.val 1 = some (c.val + 1) :=
    if_pos (show c.toNat + 1 < 2 ^ 32 by omega)
  have hnext : (c.val + 1).toNat = c.toNat + 1 := by
    rw [UInt32.toNat_add]
    exact Nat.mod_eq_of_lt (show c.toNat + 1 < 2 ^ 32 by omega)
  rw [hsum, Option.bind_some, ofCodePoint?_eq_some_iff, val_eq_iff, hnext, eq_comm]

/-- The previous code point is that of a character, or of none. -/
theorem difference?_bind_eq_some_iff :
    (difference? d.val 1).bind ofCodePoint? = some c ↔ c.toNat + 1 = d.toNat := by
  rw [difference?]
  by_cases h : 1 ≤ d.val
  · have hpos : 1 ≤ d.toNat := UInt32.le_iff_toNat_le.1 h
    have hprevious : (d.val - 1).toNat = d.toNat - 1 := UInt32.toNat_sub_of_le d.val 1 h
    rw [if_pos h, Option.bind_some, ofCodePoint?_eq_some_iff, val_eq_iff, hprevious]
    omega
  · have hzero : ¬ 1 ≤ d.toNat := fun hpos => h (UInt32.le_iff_toNat_le.2 hpos)
    rw [if_neg h, Option.bind_none]
    constructor
    · intro hnone
      cases hnone
    · intro heq
      omega

/-- The next character by code points is the next one by ordinals. -/
@[simp] theorem successor?_eq (c : Char) : successor? c = Scalar.next? c := by
  refine Option.ext fun d => ?_
  have hc := Scalar.toNat_cases c
  rw [successor?, Scalar.next?_eq_some_iff]
  by_cases hedge : c.val = 0xD7FF
  · have hlast : c.toNat = 0xD7FF := val_eq_iff.1 hedge
    have hfirst : '\uE000'.ordinal.val = 0xD800 := by decide
    rw [if_pos hedge, Option.some_inj, Scalar.eq_iff, hfirst]
    omega
  · have hlast : c.toNat ≠ 0xD7FF := fun heq => hedge (val_eq_iff.2 heq)
    rw [if_neg hedge, sum?_bind_eq_some_iff, Scalar.toNat_succ_iff]
    omega

/-- The previous character by code points is the previous one by ordinals. -/
@[simp] theorem predecessor?_eq (d : Char) : predecessor? d = Scalar.previous? d := by
  refine Option.ext fun c => ?_
  have hd := Scalar.toNat_cases d
  rw [predecessor?, Scalar.previous?_eq_some_iff]
  by_cases hedge : d.val = 0xE000
  · have hfirst : d.toNat = 0xE000 := val_eq_iff.1 hedge
    have hlast : '\uD7FF'.ordinal.val = 0xD7FF := by decide
    rw [if_pos hedge, Option.some_inj, Scalar.eq_iff, hlast]
    omega
  · have hfirst : d.toNat ≠ 0xE000 := fun heq => hedge (val_eq_iff.2 heq)
    rw [if_neg hedge, difference?_bind_eq_some_iff, Scalar.toNat_succ_iff]
    omega

end Wordwise

/-! ## The numbers of the characters of an interval -/

namespace Interval

variable {i : Interval} {n : Nat}

/-- An index finds a character exactly if it is less than the size. -/
theorem isSome_nth?_iff : (i.nth? n).isSome ↔ n < i.size := by
  rw [Option.isSome_iff_exists]
  constructor
  · rintro ⟨c, hc⟩
    obtain ⟨hordinal, hmem⟩ := nth?_eq_some_iff.1 hc
    have hends := mem_iff.1 hmem
    have hsize := size_eq i
    omega
  · intro h
    obtain ⟨c, hc, -⟩ := exists_nth? h
    exact ⟨c, hc⟩

theorem get_nth? (h : (i.nth? n).isSome) :
    ((i.nth? n).get h).ordinal.val = i.bottom + n ∧ (i.nth? n).get h ∈ i :=
  nth?_eq_some_iff.1 (Option.some_get h).symm

/-- The characters of an interval in order, numbered from the lower end. -/
def numbering (i : Interval) : Fin i.size ≃o {c // c ∈ i} where
  -- On ordinals one direction adds the lower end, and the other one takes it off.
  toFun n := ⟨(i.nth? n).get (isSome_nth?_iff.2 n.isLt), (get_nth? _).2⟩
  invFun c := ⟨c.val.ordinal.val - i.bottom, by
    have hc := mem_iff.1 c.property
    have hsize := size_eq i
    omega⟩
  left_inv n := by
    have hn := (get_nth? (isSome_nth?_iff.2 n.isLt)).1
    rw [Fin.ext_iff]
    exact Nat.sub_eq_of_eq_add' hn
  right_inv c := by
    have hc := mem_iff.1 c.property
    rw [Subtype.ext_iff, Scalar.eq_iff, (get_nth? _).1]
    exact Nat.add_sub_cancel' hc.1
  map_rel_iff' {m n} := by
    rw [Equiv.coe_fn_mk, Subtype.mk_le_mk, Scalar.le_iff, (get_nth? _).1, (get_nth? _).1]
    exact Nat.add_le_add_iff_left

theorem nth?_eq_numbering (n : Fin i.size) : i.nth? n = some (i.numbering n).val :=
  (Option.some_get _).symm

/-- The size of an interval is the number of its characters. -/
theorem ncard_eq_size (i : Interval) : {c | c ∈ i}.ncard = i.size := by
  have hcard : Nat.card {c // c ∈ i} = Nat.card (Fin i.size) :=
    Nat.card_congr i.numbering.toEquiv.symm
  rwa [Nat.card_fin] at hcard

/-- The characters of an interval are those that the steps from its lower end come to. -/
theorem nth?_eq_iterate (h : n < i.size) :
    i.nth? n = (· >>= Scalar.next?)^[n] (some i.lo) := by
  obtain ⟨c, hc, -⟩ := exists_nth? h
  rw [← Scalar.nthAfter?_eq_iterate, hc]
  exact (Option.filter_eq_some_iff.1 hc).1.symm

end Interval

/-! ## Words -/

namespace Wordwise

/-- The number of characters in an interval is a word. -/
theorem toNat_extent (i : Interval) : (UInt64.ofNat i.size).toNat = i.size := by
  have htop : i.top < 0x10F800 := Scalar.ordinal_lt i.hi
  have hsize := size_eq i
  exact toNat_ofNat (by omega)

/-- Whatever interval is given, its extent is computed without a sum that is not a word, and
is the number of different characters in it. An index that stays away from the greatest word
finds a character exactly if it is less than the extent, and then the one that as many steps
lead to from the lower end. So the indices below the extent and the characters of the interval
correspond in order. The steps themselves lead forth and back between the same characters. -/
theorem succession_exact (i : Interval) :
    ∃ len, extent i = pure len ∧ len.toNat = i.size ∧ len.toNat = {c | c ∈ i}.ncard ∧
      (∀ n : UInt64, i.lo.toNat + n.toNat + 2048 < 2 ^ 64 →
        nthIn i n = pure (i.nth? n.toNat) ∧ ((i.nth? n.toNat).isSome ↔ n < len) ∧
          (n < len → i.nth? n.toNat = (· >>= successor?)^[n.toNat] (some i.lo))) ∧
      (∃ place : Fin len.toNat ≃o {c // c ∈ i},
        ∀ n : Fin len.toNat, nthIn i (.ofNat n) = pure (some (place n).val)) ∧
      (∀ c, successor? c = Scalar.next? c ∧ predecessor? c = Scalar.previous? c) ∧
      ∀ c d, successor? c = some d ↔ predecessor? d = some c := by
  have hlen := toNat_extent i
  have hlow := toNat_lt i.lo
  have htop : i.top < 0x10F800 := Scalar.ordinal_lt i.hi
  have hsize := size_eq i
  have hlt : ∀ n : UInt64, n < .ofNat i.size ↔ n.toNat < i.size := by
    intro n
    rw [UInt64.lt_iff_toNat_lt, hlen]
  refine ⟨.ofNat i.size, extent_eq i, hlen, hlen.trans (ncard_eq_size i).symm, ?_, ?_, ?_, ?_⟩
  · intro n hn
    have hnth := nthIn_eq (i := i) hn
    rw [UInt64.ofNat_toNat] at hnth
    refine ⟨hnth, isSome_nth?_iff.trans (hlt n).symm, fun h => ?_⟩
    rw [funext successor?_eq]
    exact nth?_eq_iterate ((hlt n).1 h)
  · refine ⟨(Fin.castOrderIso hlen).trans i.numbering, fun n => ?_⟩
    have hn : n.val < i.size := Nat.lt_of_lt_of_eq n.isLt hlen
    rw [nthIn_eq (by omega)]
    exact congrArg pure (nth?_eq_numbering (Fin.cast hlen n))
  · exact fun c => ⟨successor?_eq c, predecessor?_eq c⟩
  · intro c d
    rw [successor?_eq, predecessor?_eq, Scalar.previous?_eq_some_iff_next?]

/-- An interval around the surrogate block: two steps from its lower end lead across, and it
has four characters. -/
theorem succession_exact_acrossGap :
    let i : Interval := ⟨'\uD7FE', '\uE001', by decide⟩
    i.lo.toNat + (2 : UInt64).toNat + 2048 < 2 ^ 64 ∧ {c | c ∈ i}.ncard = 4 ∧
      nthIn i 2 = pure (some '\uE000') ∧ nthIn i 4 = pure none ∧
      (· >>= successor?)^[2] (some '\uD7FE') = some '\uE000' := by
  intro i
  obtain ⟨len, -, hsize, hcount, hindex, -⟩ := succession_exact i
  have hfour : i.size = 4 := by decide
  have hplace : i.nth? 2 = some '\uE000' := by decide
  have hbeyond : i.nth? 4 = none := by decide
  have hbound : i.lo.toNat + (2 : UInt64).toNat + 2048 < 2 ^ 64 := by decide
  obtain ⟨hnth, -, hsteps⟩ := hindex 2 hbound
  obtain ⟨hend, -⟩ := hindex 4 (by decide)
  rw [hsize, hfour] at hcount
  have hlt : 2 < len := UInt64.lt_iff_toNat_lt.2 (by rw [hsize, hfour]; decide)
  exact ⟨hbound, hcount.symm, hnth.trans (congrArg pure hplace),
    hend.trans (congrArg pure hbeyond), (hsteps hlt).symm.trans hplace⟩

end Wordwise

end PatternAutomata
