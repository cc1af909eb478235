import PatternAutomata.CharClass
import PatternAutomata.Scalar

/-!
# Decimal notation

A number is written as a list of digits, the most significant one first, and a
digit as one of the characters `0` to `9`. `padded` fills up with zeros in front to
a given width; a number that is wider is written in full. In the other direction `value`
and `read` give the number that digits or a text of digits stand for, zeros in front or not.

`greatestOfWidth` is the bound that automata for numerals of one width are built with. It is
the greatest number of the width as long as the width and the number are words.

## Main results

* `digits_padded`, `length_padded`: what is written is a digit list, of a known length.
* `exists_digits_iff`: the texts of digits are the digit lists, character by character.
-/

namespace PatternAutomata.Decimal

/-- The digits of a number; zero has one digit. -/
def digits (n : Nat) : List Nat :=
  if n < 10 then [n] else digits (n / 10) ++ [n % 10]

/-- The number of digits of a number. -/
def length (n : Nat) : Nat := (digits n).length

/-- The digits of a number with zeros in front, at least `width` in all. -/
def padded (width n : Nat) : List Nat :=
  List.replicate (width - length n) 0 ++ digits n

/-- The greatest number of a width, one less than a power of ten. The width counts as a
word of 32 bits; where the power is not a word of 64 bits, the greatest such word stands
for it. -/
def greatestOfWidth (width : Nat) : Nat :=
  let k := width % 4294967296
  if k < 20 then Nat.pow 10 k - 1 else 18446744073709551614

/-- The number that some digits stand for. -/
def value (ds : List Nat) : Nat := ds.foldl (fun n d => 10 * n + d) 0

/-- The character of a digit. -/
def digitChar (d : Nat) : Char := Char.ofNat ('0'.toNat + d)

/-- The digit of a character. -/
def digitOf (c : Char) : Nat := c.toNat - '0'.toNat

/-- The text of a number with zeros in front, at least `width` characters. -/
def render (width n : Nat) : List Char := (padded width n).map digitChar

/-- The number that a text of digits stands for. -/
def read (cs : List Char) : Nat := value (cs.map digitOf)

/-- The members of a list are digits. -/
def Digits (ds : List Nat) : Prop := ∀ d ∈ ds, d < 10

variable {d n : Nat} {ds : List Nat}

@[simp] theorem digits_cons_iff : Digits (d :: ds) ↔ d < 10 ∧ Digits ds := by
  simp [Digits]

theorem Digits.replicate_append (h : Digits ds) (k : Nat) :
    Digits (List.replicate k 0 ++ ds) := by
  intro d hd
  rcases List.mem_append.1 hd with hd | hd
  · rw [List.eq_of_mem_replicate hd]
    omega
  · exact h d hd

/-! ## The digits of a number -/

theorem digits_digits (n : Nat) : Digits (digits n) := by
  induction n using digits.induct with
  | case1 n hn =>
      rw [digits, if_pos hn]
      intro d hd
      rw [List.mem_singleton.1 hd]
      exact hn
  | case2 n hn ih =>
      rw [digits, if_neg hn]
      intro d hd
      rcases List.mem_append.1 hd with hd | hd
      · exact ih d hd
      · rw [List.mem_singleton.1 hd]
        exact Nat.mod_lt n (by omega)

theorem length_pos (n : Nat) : 0 < length n := by
  unfold length
  rw [digits]
  split <;> simp

@[simp] theorem length_padded (width n : Nat) : (padded width n).length = max width (length n) := by
  rw [padded, List.length_append, List.length_replicate, ← length]
  omega

theorem digits_padded (width n : Nat) : Digits (padded width n) :=
  (digits_digits n).replicate_append _

/-! ## Characters -/

theorem ordinal_digitChar (h : d < 10) : (digitChar d).ordinal.val = 48 + d := by
  revert d
  decide

theorem digitOf_digitChar (h : d < 10) : digitOf (digitChar d) = d := by
  revert d
  decide

theorem isDigit_digitChar (h : d < 10) : CharClass.isDigit (digitChar d) = true := by
  revert d
  decide

theorem digitOf_lt {c : Char} (h : CharClass.isDigit c = true) :
    digitOf c < 10 ∧ digitChar (digitOf c) = c := by
  rw [CharClass.isDigit, decide_eq_true_iff] at h
  have hlo : 48 ≤ c.toNat := h.1
  have hhi : c.toNat ≤ 57 := h.2
  have hof : digitOf c = c.toNat - 48 := rfl
  refine ⟨by omega, ?_⟩
  rw [digitChar, hof, show '0'.toNat + (c.toNat - 48) = c.toNat from Nat.add_sub_cancel' hlo,
    Char.ofNat_toNat]

/-- A text of digits is written with the digits that it reads. -/
theorem exists_digits_iff {w : List Char} :
    (∀ c ∈ w, CharClass.isDigit c = true) ↔ ∃ ds, Digits ds ∧ w = ds.map digitChar := by
  constructor
  · intro h
    refine ⟨w.map digitOf, ?_, ?_⟩
    · intro d hd
      obtain ⟨c, hc, rfl⟩ := List.mem_map.1 hd
      exact (digitOf_lt (h c hc)).1
    · rw [List.map_map]
      symm
      refine (List.map_congr_left fun c hc => ?_).trans w.map_id
      exact (digitOf_lt (h c hc)).2
  · intro h
    obtain ⟨ds, hds, rfl⟩ := h
    intro c hc
    obtain ⟨d, hd, rfl⟩ := List.mem_map.1 hc
    exact isDigit_digitChar (hds d hd)

@[simp] theorem length_render (width n : Nat) : (render width n).length = max width (length n) := by
  rw [render, List.length_map, length_padded]

theorem render_ne_nil (width n : Nat) : render width n ≠ [] := by
  apply List.ne_nil_of_length_pos
  have := length_pos n
  rw [length_render]
  omega

theorem isDigit_of_mem_render {width n : Nat} {c : Char} (h : c ∈ render width n) :
    CharClass.isDigit c = true :=
  exists_digits_iff.2 ⟨_, digits_padded width n, rfl⟩ c h

end PatternAutomata.Decimal
