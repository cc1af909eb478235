import PatternAutomata.Decimal
import PatternAutomata.Dfa.Composition

/-!
# Automata for the numerals of a range of numbers

The numerals of a fixed width for the numbers from `lo` to `hi` are the digit
sequences that lie between those of the two bounds in lexicographic order. A
reader goes from left to right and remembers, for each bound, whether the digits
read so far agree with it; as soon as they do not, that bound has no say any more.
`Window` is what it remembers.

States are numbered depth first: all states below a digit come before those below
the next digit.

Numerals of arbitrary width are a number of zeros followed by a numeral without
zeros in front, one fixed width after the other.

Numbers beyond the greatest one of a width (`Decimal.greatestOfWidth`) are left out.
These are the numbers that need more digits, and further ones for a width that is not a
word of 32 bits: the width is cut down to a word before the power of ten is taken.
-/

namespace PatternAutomata.Dfa

/-- What the digits still to be read have to satisfy: their number, and the rests
of the bounds that still have a say. -/
structure Window where
  width : Nat
  lower : Option (List Nat)
  upper : Option (List Nat)
deriving DecidableEq

namespace Window

/-- The least digit that may come next. -/
def first (w : Window) : Nat :=
  match w.lower with
  | some (d :: _) => d
  | _ => 0

/-- The greatest digit that may come next. -/
def last (w : Window) : Nat :=
  match w.upper with
  | some (d :: _) => d
  | _ => 9

/-- What is left to satisfy after a digit. -/
def after (w : Window) (d : Nat) : Window where
  width := w.width - 1
  lower := if d = w.first then w.lower.map List.tail else none
  upper := if d = w.last then w.upper.map List.tail else none

/-- The digits that may come next. -/
def choices (w : Window) : List Nat :=
  if w.width = 0 then [] else (List.range (w.last + 1)).drop w.first

/-- The machine that reads digits from a window on. -/
def machine (w : Window) : Machine Window where
  start := w
  accepting v := v.width == 0
  edges v := v.choices.map fun d => (.singleton (Decimal.digitChar d), v.after d)

end Window

/-- Accepts the numerals of exactly `width` digits for the numbers `lo, …, hi` that are
not beyond the greatest one of the width. -/
def fixedWidth (width lo hi : Nat) : Dfa :=
  let hi := min hi (Decimal.greatestOfWidth width)
  if hi < lo then empty
  else
    let w : Window := ⟨width, some (Decimal.padded width lo), some (Decimal.padded width hi)⟩
    w.machine.tabulate (Exploration.preorder w.machine.successors width [] w)

/-- Accepts the numerals of `k` digits, without zeros in front, for the numbers
`lo, …, hi`, if there are any. -/
def ofLength? (lo hi k : Nat) : Option Dfa :=
  let least := if k = 1 then 0 else Nat.pow 10 (k - 1)
  let lo := max lo least
  let hi := min hi (Nat.pow 10 k - 1)
  if lo ≤ hi then some (fixedWidth k lo hi) else none

/-- Accepts the numerals for the numbers between two bounds, in either order. With
`width = 0` there may be any number of zeros in front; otherwise a numeral has
exactly `width` digits, or as many as the greater bound needs. -/
def numerals (a b width : Nat) : Dfa :=
  let lo := min a b
  let hi := max a b
  if width = 0 then
    concat [(ofChar '0').star,
      union (((List.range (Decimal.length hi)).map (· + 1)).filterMap (ofLength? lo hi))]
  else fixedWidth (max width (Decimal.length hi)) lo hi

end PatternAutomata.Dfa
