import PatternAutomata.Scalar

/-!
# Intervals of characters

An `Interval` is a non-empty run of consecutive characters, given by its two
ends, both included. The ends are in order by construction, so no operation has
to ask whether an interval is proper; the ones that may come out empty answer
with an `Option`.

Cutting (`below?`, `above?`) goes through the neighbouring character, and
`Touches` asks for neighbouring ends, so both step over the surrogate block.

An operation refuses some of its arguments: an interval needs its bounds in order, and a
state of a deterministic automaton has at most one transition per character (`Misuse`). A
refused call leaves its value as it was.

## Main results

* `mem_inter?`, `mem_below?`, `mem_above?`: cutting keeps exactly the characters
  on the wanted side.
-/

/-! ## Calls that break a precondition -/

namespace PatternAutomata

/-- Why an operation refuses its arguments. -/
inductive Misuse where
  /-- The lower bound of an interval is greater than the upper one. -/
  | boundsOutOfOrder
  /-- A new transition shares a character with an old one of the same state. -/
  | overlappingTransitions
deriving DecidableEq, Repr

/-- The text that reports a refused call. -/
def Misuse.message : Misuse → String
  | .boundsOutOfOrder => "interval bounds out of order"
  | .overlappingTransitions => "overlapping transitions in a DFA"

/-! ## Intervals -/

/-- The characters from `lo` to `hi`, both included. -/
structure Interval where
  lo : Char
  hi : Char
  lo_le_hi : lo ≤ hi
deriving DecidableEq

namespace Interval

/-- The interval between two bounds, if they are in order. -/
def ofBounds? (lo hi : Char) : Option Interval :=
  if h : lo ≤ hi then some ⟨lo, hi, h⟩ else none

/-- The interval between two bounds that have to be in order. -/
def ofBounds (lo hi : Char) : Except Misuse Interval :=
  match ofBounds? lo hi with
  | some i => .ok i
  | none => .error .boundsOutOfOrder

/-- The interval that holds one character. -/
def singleton (c : Char) : Interval := ⟨c, c, Char.le_refl c⟩

/-- All characters. -/
def full : Interval := ⟨Scalar.least, Scalar.greatest, Scalar.least_le _⟩

instance : Membership Char Interval where
  mem i c := i.lo ≤ c ∧ c ≤ i.hi

theorem mem_def {c : Char} {i : Interval} : c ∈ i ↔ i.lo ≤ c ∧ c ≤ i.hi := Iff.rfl

instance (c : Char) (i : Interval) : Decidable (c ∈ i) :=
  inferInstanceAs (Decidable (i.lo ≤ c ∧ c ≤ i.hi))

/-- The number of characters in the interval. -/
def size (i : Interval) : Nat := Scalar.count i.lo i.hi

/-- The character with index `n`, counting from zero at the lower end. -/
def nth? (i : Interval) (n : Nat) : Option Char :=
  (Scalar.nthAfter? i.lo n).filter (· ≤ i.hi)

/-- The characters of the interval in order. -/
def toList (i : Interval) : List Char :=
  (List.range i.size).filterMap i.nth?

/-- Two intervals touch if one begins right after the other ends. -/
def Touches (i j : Interval) : Prop :=
  Scalar.next? i.hi = some j.lo ∨ Scalar.next? j.hi = some i.lo

instance (i j : Interval) : Decidable (i.Touches j) :=
  inferInstanceAs (Decidable (_ ∨ _))

/-- All characters of the first interval come before those of the second. -/
def Before (i j : Interval) : Prop := i.hi < j.lo

instance (i j : Interval) : Decidable (i.Before j) :=
  inferInstanceAs (Decidable (i.hi < j.lo))

/-- Two intervals have a character in common. -/
def Meets (i j : Interval) : Prop := ∃ c, c ∈ i ∧ c ∈ j

/-- The greater of two characters. -/
def greater (c d : Char) : Char := if c ≤ d then d else c

/-- The lesser of two characters. -/
def lesser (c d : Char) : Char := if c ≤ d then c else d

/-- The common part of two intervals. -/
def inter? (i j : Interval) : Option Interval :=
  ofBounds? (greater i.lo j.lo) (lesser i.hi j.hi)

/-- The part of the interval strictly below `c`. -/
def below? (i : Interval) (c : Char) : Option Interval :=
  (Scalar.previous? c).bind fun p => ofBounds? i.lo (lesser p i.hi)

/-- The part of the interval strictly above `c`. -/
def above? (i : Interval) (c : Char) : Option Interval :=
  (Scalar.next? c).bind fun s => ofBounds? (greater s i.lo) i.hi

theorem lesser_le_greater {a b c d : Char} (h : a ≤ c) : lesser a b ≤ greater c d := by
  unfold lesser greater
  split <;> split <;> simp only [Scalar.le_iff] at * <;> omega

/-- The least interval around two intervals. -/
def hull (i j : Interval) : Interval :=
  ⟨lesser i.lo j.lo, greater i.hi j.hi, lesser_le_greater i.lo_le_hi⟩

/-! ### Membership -/

theorem ofBounds?_eq_some_iff {lo hi : Char} {i : Interval} :
    ofBounds? lo hi = some i ↔ i.lo = lo ∧ i.hi = hi := by
  unfold ofBounds?
  split
  · rw [Option.some_inj]
    constructor
    · rintro rfl
      exact ⟨rfl, rfl⟩
    · rintro ⟨rfl, rfl⟩
      rfl
  · next h =>
    simp only [reduceCtorEq, false_iff]
    rintro ⟨rfl, rfl⟩
    exact h i.lo_le_hi

theorem exists_mem_ofBounds?_iff {lo hi c : Char} :
    (∃ i ∈ ofBounds? lo hi, c ∈ i) ↔ lo ≤ c ∧ c ≤ hi := by
  constructor
  · rintro ⟨i, hi', hc⟩
    obtain ⟨rfl, rfl⟩ := ofBounds?_eq_some_iff.1 hi'
    exact hc
  · intro hc
    exact ⟨⟨lo, hi, Char.le_trans hc.1 hc.2⟩, ofBounds?_eq_some_iff.2 ⟨rfl, rfl⟩, hc⟩

@[simp] theorem mem_singleton {c d : Char} : d ∈ singleton c ↔ d = c := by
  simp only [mem_def, singleton, Scalar.le_iff, Scalar.eq_iff]
  omega

@[simp] theorem mem_full (c : Char) : c ∈ full := ⟨Scalar.least_le c, Scalar.le_greatest c⟩

@[simp] theorem greater_le_iff {a b c : Char} : greater a b ≤ c ↔ a ≤ c ∧ b ≤ c := by
  unfold greater
  split <;> simp only [Scalar.le_iff] at * <;> omega

@[simp] theorem le_lesser_iff {a b c : Char} : c ≤ lesser a b ↔ c ≤ a ∧ c ≤ b := by
  unfold lesser
  split <;> simp only [Scalar.le_iff] at * <;> omega

/-- The common part holds the common characters. -/
theorem mem_inter? {i j : Interval} {c : Char} :
    (∃ k ∈ i.inter? j, c ∈ k) ↔ c ∈ i ∧ c ∈ j := by
  unfold inter?
  rw [exists_mem_ofBounds?_iff, greater_le_iff, le_lesser_iff, mem_def, mem_def]
  grind

/-- Cutting off at `c` keeps the characters below `c`. -/
theorem mem_below? {i : Interval} {c d : Char} :
    (∃ k ∈ i.below? c, d ∈ k) ↔ d ∈ i ∧ d < c := by
  unfold below?
  cases h : Scalar.previous? c with
  | none =>
    simp only [Option.bind_none, Option.not_mem_none, false_and, exists_false, false_iff]
    rintro ⟨_, hd⟩
    unfold Scalar.previous? at h
    split at h
    · rw [Scalar.lt_iff] at hd
      omega
    · simp at h
  | some p =>
    have hp := Scalar.previous?_eq_some_iff.1 h
    rw [Option.bind_some, exists_mem_ofBounds?_iff, le_lesser_iff, mem_def]
    simp only [Scalar.le_iff, Scalar.lt_iff]
    omega

/-- Cutting off at `c` keeps the characters above `c`. -/
theorem mem_above? {i : Interval} {c d : Char} :
    (∃ k ∈ i.above? c, d ∈ k) ↔ d ∈ i ∧ c < d := by
  unfold above?
  cases h : Scalar.next? c with
  | none =>
    simp only [Option.bind_none, Option.not_mem_none, false_and, exists_false, false_iff]
    rintro ⟨_, hd⟩
    have hc : c.ordinal.val + 1 < Char.numCodePoints := by
      have := Scalar.ordinal_lt d
      rw [Scalar.lt_iff] at hd
      omega
    have hs : Scalar.next? c = some (Char.ofOrdinal ⟨c.ordinal.val + 1, hc⟩) :=
      Scalar.next?_eq_some_iff.2 (by simp)
    rw [h] at hs
    simp at hs
  | some s =>
    have hs := Scalar.next?_eq_some_iff.1 h
    rw [Option.bind_some, exists_mem_ofBounds?_iff, greater_le_iff, mem_def]
    simp only [Scalar.le_iff, Scalar.lt_iff]
    omega

end Interval

end PatternAutomata
