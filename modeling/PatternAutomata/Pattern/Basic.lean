import PatternAutomata.CharClass
import PatternAutomata.Decimal
import PatternAutomata.Exploration
import PatternAutomata.Interval.Lists
import Std.Data.ExtTreeSet

/-!
# Patterns as trees

A `Pattern` is a regular expression: literals, classes, repetition, and beyond the
usual forms intersection, complement, references to automata by name and ranges of
numerals.

Neighbouring literals are kept in one node: `join` is the concatenation that folds
them, also across the nearer end of a concatenation that is there already.

## Main definitions

* `Alphabet`: what `.` and the class escapes range over.
* `Pattern`, `Pattern.join`: trees, and the concatenation that folds literals.
* `Pattern.usedChars`, `Pattern.names`: what a pattern mentions.
-/

/-! ## Alphabets

The alphabet of a pattern is what `.` and the class escapes range over. It keeps
the order in which its characters were given, which is how it is listed; what a
pattern means depends on the set of its characters only. -/

namespace PatternAutomata

/-- Characters without repetitions, in an order of their own. -/
structure Alphabet where
  chars : List Char
deriving DecidableEq

namespace Alphabet

/-- The alphabet of some characters, in order of first occurrence. -/
def ofList (cs : List Char) : Alphabet := ⟨Exploration.distinct cs⟩

/-- The characters of ASCII that are neither control characters nor `U+007F`. -/
def printableRange : Interval := ⟨' ', '~', by decide⟩

/-- The printable characters of ASCII in ascending order. -/
def printable : Alphabet := ⟨printableRange.toList⟩

instance : Inhabited Alphabet := ⟨printable⟩

/-- Whether a character belongs to the alphabet. -/
def contains (a : Alphabet) (c : Char) : Bool := decide (c ∈ a.chars)

/-- Whether the alphabet has no characters. -/
def isEmpty (a : Alphabet) : Bool := a.chars.isEmpty

/-- The characters that pass a test, in the order of the alphabet. -/
def filter (a : Alphabet) (test : Char → Bool) : List Char := a.chars.filter test

/-- The set of the characters. -/
def toSet (a : Alphabet) : IntervalSet := IntervalSet.ofChars a.chars

end Alphabet

/-! ## Trees -/

/-- A pattern. -/
inductive Pattern where
  /-- Words of either pattern. -/
  | union (first second : Pattern)
  /-- Words of the first pattern followed by words of the second. -/
  | concat (first second : Pattern)
  /-- Words of both patterns. -/
  | inter (first second : Pattern)
  /-- Words of the pattern and the empty word. -/
  | optional (body : Pattern)
  /-- Any number of words of the pattern. -/
  | star (body : Pattern)
  /-- At least `min` words of the pattern. -/
  | atLeast (min : Nat) (body : Pattern)
  /-- From `min` to `max` words of the pattern. -/
  | between (min max : Nat) (body : Pattern)
  /-- Words, over all characters, that are not words of the pattern. -/
  | complement (body : Pattern)
  /-- One given character. -/
  | char (c : Char)
  /-- One of the characters `lo, …, hi`. -/
  | range (lo hi : Char)
  /-- One character of the alphabet. -/
  | anyChar
  /-- Any word. -/
  | anyWord
  /-- No word. -/
  | empty
  /-- One given word. -/
  | literal (text : List Char)
  /-- Words of the automaton with the given name. -/
  | reference (name : String)
  /-- Numerals for the numbers `lo, …, hi`, of the given width unless that is 0. -/
  | numerals (lo hi width : Nat)
deriving DecidableEq, Inhabited

namespace Pattern

/-- The text of a literal, be it a character or a longer one. -/
def text? : Pattern → Option (List Char)
  | char c => some [c]
  | literal text => some text
  | _ => none

/-- A concatenation that ends with a literal, with more text at its end. -/
def extendRight? (t : List Char) : Pattern → Option Pattern
  | concat a b => b.text?.map fun s => concat a (literal (s ++ t))
  | _ => none

/-- A concatenation that begins with a literal, with more text at its beginning. -/
def extendLeft? (s : List Char) : Pattern → Option Pattern
  | concat a b => a.text?.map fun t => concat (literal (s ++ t)) b
  | _ => none

/-- Concatenation that puts literals side by side into one. -/
def join (a b : Pattern) : Pattern :=
  match a.text?, b.text? with
  | some s, some t => literal (s ++ t)
  | none, some t => (a.extendRight? t).getD (concat a b)
  | some s, none => (b.extendLeft? s).getD (concat a b)
  | none, none => concat a b

/-- One character of the alphabet, but not one of the excluded ones. -/
def exclude (excluded : Pattern) : Pattern := inter anyChar (complement excluded)

/-- The union of some patterns, the first ones innermost. -/
def unionAll : List Pattern → Pattern
  | [] => empty
  | p :: ps => ps.foldl union p

/-- One of the characters of an interval. -/
def ofInterval (i : Interval) : Pattern := if i.lo = i.hi then char i.lo else range i.lo i.hi

/-- The last character before the surrogate block. -/
def lastBelowSurrogates : Char := ⟨0xD7FF, by decide⟩

/-- The first character after the surrogate block. -/
def firstAboveSurrogates : Char := ⟨0xE000, by decide⟩

/-- The parts of an interval on either side of the surrogate block. -/
def splitAtSurrogates (i : Interval) : List Interval :=
  (i.below? firstAboveSurrogates).toList ++ (i.above? lastBelowSurrogates).toList

/-- One character out of a set, written with as few ranges of code points as
possible. -/
def ofSet (s : IntervalSet) : Pattern :=
  unionAll ((s.intervals.flatMap splitAtSurrogates).map ofInterval)

/-- One of the given characters. -/
def ofChars (cs : List Char) : Pattern := ofSet (IntervalSet.ofChars cs)

end Pattern

end PatternAutomata

/-! ## What a pattern mentions

`usedChars` is a set of characters read off the structure of a pattern: the ones
that its words are made of, as far as the structure tells. The automata that a
pattern refers to are not looked into; a reference counts as the text of its name.

`names` are the names of the automata that a pattern refers to. -/

namespace PatternAutomata.Pattern

/-- The characters that the alphabet of a pattern stands for. Without an alphabet
these are the printable characters of ASCII. -/
def domain (alphabet : Option Alphabet) : IntervalSet :=
  match alphabet with
  | some a => a.toSet
  | none => IntervalSet.empty.insert Alphabet.printableRange

/-- The white space of the alphabet. -/
def blanks (alphabet : Option Alphabet) : IntervalSet :=
  match alphabet with
  | some a => IntervalSet.ofChars (a.filter CharClass.isSpace)
  | none => IntervalSet.ofChars [' ']

/-- The characters that a pattern mentions. -/
def usedChars (alphabet : Option Alphabet) : Pattern → IntervalSet
  | union a b | concat a b => (usedChars alphabet a).union (usedChars alphabet b)
  | inter a b => (usedChars alphabet a).inter (usedChars alphabet b)
  | optional a | star a | atLeast _ a | between _ _ a => usedChars alphabet a
  | complement a => (domain alphabet).diff (usedChars alphabet a)
  | char c => IntervalSet.ofChars [c]
  | range lo hi => IntervalSet.ofBounds lo hi
  | anyChar | anyWord => domain alphabet
  | empty => blanks alphabet
  | literal text => IntervalSet.ofChars text
  | reference name => IntervalSet.ofChars name.toList
  | numerals lo hi _ => IntervalSet.ofChars (Decimal.render 0 lo ++ Decimal.render 0 hi)

/-- The names in a pattern from left to right, with repetitions. -/
def references : Pattern → List String
  | union a b | concat a b | inter a b => references a ++ references b
  | optional a | star a | atLeast _ a | between _ _ a | complement a => references a
  | reference name => [name]
  | _ => []

/-- The names in a pattern, in order of their characters. -/
def names (p : Pattern) : List String :=
  (Std.ExtTreeSet.ofList p.references compare).toList

end PatternAutomata.Pattern
