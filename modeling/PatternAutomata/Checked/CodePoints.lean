import PatternAutomata.Checked.Basic

/-!
# Counting characters by code points

A code point is a word, and so is a number of characters. Neighbours have consecutive code
points, except for the two on either side of the surrogate block. Between two characters there
are as many as their code points differ by, less the surrogate block if it lies between them; a
place some characters further on is beyond the block if the sum of code point and distance
reaches it. A sum or difference that is not a word of 64 bits ends the computation.

## Main definitions

* `Wordwise`: computations with words.
* `Wordwise.successor?`, `Wordwise.predecessor?`: the neighbours of a character.
* `Wordwise.count`, `Wordwise.nthAfter`: the number of characters between two bounds, and
  the character some places after another.
-/

namespace PatternAutomata

/-- Why a computation with words breaks off. -/
inductive WordFault where
  /-- A call refuses its arguments, or a table has no entry. -/
  | call (f : Fault)
  /-- The result of a sum or difference is not a word. -/
  | overflow
  /-- No character has the number. -/
  | noSuchCharacter (n : UInt64)
deriving DecidableEq, Repr

/-- A computation with words of 64 bits. -/
abbrev Wordwise (α : Type) := Except WordFault α

namespace Wordwise

/-- A checked call within a computation with words. -/
def ofChecked {α : Type} (x : Checked α) : Wordwise α := x.mapError .call

/-- The sum of two words, which has to be a word. -/
def add (a b : UInt64) : Wordwise UInt64 :=
  if a.toNat + b.toNat < UInt64.size then pure (a + b) else throw .overflow

/-- The difference of two words, which has to be a word. -/
def sub (a b : UInt64) : Wordwise UInt64 := if b ≤ a then pure (a - b) else throw .overflow

/-! ## Code points -/

/-- The code point of a character. -/
def codePoint (c : Char) : UInt64 := c.val.toUInt64

/-- The character with a code point, if there is one. -/
def ofCodePoint? (n : UInt32) : Option Char :=
  if h : n.isValidChar then some ⟨n, h⟩ else none

/-- The first code point that no character has. -/
def surrogateFirst : UInt64 := 0xD800

/-- The last code point below the greatest one that no character has. -/
def surrogateLast : UInt64 := 0xDFFF

/-- The number of code points that no character has. -/
def surrogateCount : UInt64 := surrogateLast - surrogateFirst + 1

/-- The greatest code point. -/
def lastCodePoint : UInt64 := 0x10FFFF

/-! ## Neighbours -/

/-- The sum of two words of 32 bits, if it is one. -/
def sum? (a b : UInt32) : Option UInt32 :=
  if a.toNat + b.toNat < UInt32.size then some (a + b) else none

/-- The difference of two words of 32 bits, if it is one. -/
def difference? (a b : UInt32) : Option UInt32 := if b ≤ a then some (a - b) else none

/-- The character right after `c`, if there is one. The last one below the surrogate block is
followed by the first one above it. -/
def successor? (c : Char) : Option Char :=
  if c.val = 0xD7FF then some '\uE000' else (sum? c.val 1).bind ofCodePoint?

/-- The character right before `c`, if there is one. -/
def predecessor? (c : Char) : Option Char :=
  if c.val = 0xE000 then some '\uD7FF' else (difference? c.val 1).bind ofCodePoint?

/-! ## Distances -/

/-- How many characters `lo, …, hi` there are; none if the bounds are reversed. -/
def count (lo hi : Char) : Wordwise UInt64 :=
  if hi < lo then pure 0
  else do
    let width ← add (← sub (codePoint hi) (codePoint lo)) 1
    if codePoint lo < surrogateFirst ∧ surrogateLast < codePoint hi then
      sub width surrogateCount
    else pure width

/-- The character `n` places after `c`, if there is one. There is none if the sum of code
point and distance is not a word. -/
def nthAfter (c : Char) (n : UInt64) : Wordwise (Option Char) :=
  match add (codePoint c) n with
  | .error _ => pure none
  | .ok place => do
    let place ← if codePoint c < surrogateFirst ∧ surrogateFirst ≤ place then
      add place surrogateCount
    else pure place
    return if lastCodePoint < place then none else ofCodePoint? place.toUInt32

/-! ## Intervals -/

/-- The number of characters in an interval. -/
def extent (i : Interval) : Wordwise UInt64 := count i.lo i.hi

/-- The character of an interval with index `n`, counting from zero at the lower end. -/
def nthIn (i : Interval) (n : UInt64) : Wordwise (Option Char) :=
  return (← nthAfter i.lo n).filter (· ≤ i.hi)

end Wordwise

end PatternAutomata
