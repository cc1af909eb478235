import PatternAutomata.Decimal
import PatternAutomata.Pattern.Basic
import PatternAutomata.Pattern.Cursor

/-!
# Shapes of patterns

Predicates on trees that tell which of them are read from a text or can be written
as one, and the two rebuilding functions that go with them.

* `Folded`: neighbouring literals have been joined.
* `Bounded`, `Narrow`: the bounds, and the widths, of ranges of numerals are words.
* `Expressible`: the tree has a text that is read as the tree, up to `refold`.
* `Regular`: the bounds that reading guarantees, for the extensions that are on.
* `substitute`: a tree with trees in place of its references.
-/

namespace PatternAutomata.Pattern

/-- A literal, be it a character or a longer one. -/
def IsLiteral (p : Pattern) : Prop := p.text?.isSome = true

instance (p : Pattern) : Decidable p.IsLiteral := inferInstanceAs (Decidable (_ = true))

/-- What a concatenation begins with. -/
def firstPart : Pattern → Pattern
  | concat a _ => firstPart a
  | p => p

/-- What a concatenation ends with. -/
def lastPart : Pattern → Pattern
  | concat _ b => lastPart b
  | p => p

/-- Some condition holds of every node of a tree. -/
def Every (holds : Pattern → Prop) : Pattern → Prop
  | union a b => holds (union a b) ∧ Every holds a ∧ Every holds b
  | concat a b => holds (concat a b) ∧ Every holds a ∧ Every holds b
  | inter a b => holds (inter a b) ∧ Every holds a ∧ Every holds b
  | optional a => holds (optional a) ∧ Every holds a
  | star a => holds (star a) ∧ Every holds a
  | atLeast min a => holds (atLeast min a) ∧ Every holds a
  | between min max a => holds (between min max a) ∧ Every holds a
  | complement a => holds (complement a) ∧ Every holds a
  | p => holds p

section Every

variable {holds : Pattern → Prop} {p : Pattern}

theorem Every.here (h : p.Every holds) : holds p := by
  cases p with
  | union | concat | inter | optional | star | atLeast | between | complement => exact h.1
  | _ => exact h

theorem Every.imp {holds' : Pattern → Prop} (himp : ∀ p, holds p → holds' p)
    (h : p.Every holds) : p.Every holds' := by
  induction p with
  | union a b iha ihb | concat a b iha ihb | inter a b iha ihb =>
      exact ⟨himp _ h.1, iha h.2.1, ihb h.2.2⟩
  | optional a ih | star a ih | atLeast _ a ih | between _ _ a ih | complement a ih =>
      exact ⟨himp _ h.1, ih h.2⟩
  | _ => exact himp _ h

theorem Every.and {holds' : Pattern → Prop} (h : p.Every holds) (h' : p.Every holds') :
    p.Every fun q => holds q ∧ holds' q := by
  induction p with
  | union a b iha ihb | concat a b iha ihb | inter a b iha ihb =>
      exact ⟨⟨h.1, h'.1⟩, iha h.2.1 h'.2.1, ihb h.2.2 h'.2.2⟩
  | optional a ih | star a ih | atLeast _ a ih | between _ _ a ih | complement a ih =>
      exact ⟨⟨h.1, h'.1⟩, ih h.2 h'.2⟩
  | _ => exact ⟨h, h'⟩

end Every

/-- A concatenation has no literals that would have been joined. -/
def FoldedHere : Pattern → Prop
  | concat a b =>
    ¬ (a.IsLiteral ∧ b.IsLiteral) ∧ (b.IsLiteral → ¬ a.lastPart.IsLiteral) ∧
      (a.IsLiteral → ¬ b.firstPart.IsLiteral)
  | _ => True

/-- No concatenation in the tree has literals that would have been joined. -/
def Folded (p : Pattern) : Prop := p.Every FoldedHere

/-- The bounds of a range of numerals are words of 32 bits. -/
def BoundedHere : Pattern → Prop
  | numerals lo hi _ => lo < Cursor.integerLimit ∧ hi < Cursor.integerLimit
  | _ => True

/-- The bounds of all ranges of numerals in the tree are words of 32 bits. -/
def Bounded (p : Pattern) : Prop := p.Every BoundedHere

/-- The width of a range of numerals is a word of 32 bits. -/
def NarrowHere : Pattern → Prop
  | numerals _ _ width => width < Cursor.integerLimit
  | _ => True

/-- The widths of all ranges of numerals in the tree are words of 32 bits. -/
def Narrow (p : Pattern) : Prop := p.Every NarrowHere

/-- The node has a text that is read as it is. -/
def ExpressibleHere : Pattern → Prop
  | atLeast min _ => min < Cursor.integerLimit
  | between min max _ => min ≤ max ∧ max < Cursor.integerLimit
  | numerals lo hi width =>
    lo ≤ hi ∧ hi < Cursor.integerLimit ∧
      ((width = 0 ∧ Decimal.length lo ≠ Decimal.length hi) ∨
        (width ≠ 0 ∧ Decimal.length hi ≤ width))
  | reference name => '>' ∉ name.toList ∧ '-' ∉ name.toList
  | _ => True

/-- The tree has a text that is read as the tree, up to `refold`. -/
def Expressible (p : Pattern) : Prop := p.Every ExpressibleHere

/-- The tree with neighbouring literals joined from the bottom up, and a quote in
place of the text that consists of one. -/
def refold : Pattern → Pattern
  | union a b => union (refold a) (refold b)
  | concat a b => join (refold a) (refold b)
  | inter a b => inter (refold a) (refold b)
  | optional a => optional (refold a)
  | star a => star (refold a)
  | atLeast min a => atLeast min (refold a)
  | between min max a => between min max (refold a)
  | complement a => complement (refold a)
  | literal text => if text = ['"'] then char '"' else literal text
  | p => p

/-- The tree is a class written out: single characters and ranges, in unions. -/
def WrittenOut : Pattern → Prop
  | union a b => WrittenOut a ∧ WrittenOut b
  | char _ => True
  | range _ _ => True
  | _ => False

/-- The bounds of a node are as reading leaves them, and it needs no extension that
is off. A class may bring in the empty pattern if an alphabet is set. -/
def RegularHere (e : Extensions) (hasAlphabet : Bool) : Pattern → Prop
  | atLeast min _ => min < Cursor.integerLimit
  | between min max _ => min ≤ max ∧ max < Cursor.integerLimit
  | numerals lo hi width =>
    lo ≤ hi ∧ hi < Cursor.integerLimit ∧ (width = 0 ∨ Decimal.length hi ≤ width) ∧
      e.numerals = true
  | reference name => '>' ∉ name.toList ∧ '-' ∉ name.toList ∧ e.reference = true
  | anyWord => e.anyWord = true
  | empty => e.empty = true ∨ hasAlphabet = true
  | _ => True

/-- Intersection and complement occur only in the way that classes use them, unless
the extension is on. -/
def Confined (e : Extensions) : Pattern → Prop
  | inter a b =>
    (∃ excluded, WrittenOut excluded ∧ inter a b = exclude excluded) ∨
      (e.intersection = true ∧ Confined e a ∧ Confined e b)
  | complement a => e.complement = true ∧ Confined e a
  | union a b => Confined e a ∧ Confined e b
  | concat a b => Confined e a ∧ Confined e b
  | optional a => Confined e a
  | star a => Confined e a
  | atLeast _ a => Confined e a
  | between _ _ a => Confined e a
  | _ => True

/-- The tree is as reading leaves it. -/
structure Regular (e : Extensions) (hasAlphabet : Bool) (p : Pattern) : Prop where
  nodes : p.Every (RegularHere e hasAlphabet)
  confined : p.Confined e

/-- The tree with other trees in place of its references. -/
def substitute (named : String → Pattern) : Pattern → Pattern
  | union a b => union (substitute named a) (substitute named b)
  | concat a b => concat (substitute named a) (substitute named b)
  | inter a b => inter (substitute named a) (substitute named b)
  | optional a => optional (substitute named a)
  | star a => star (substitute named a)
  | atLeast min a => atLeast min (substitute named a)
  | between min max a => between min max (substitute named a)
  | complement a => complement (substitute named a)
  | reference name => named name
  | p => p

end PatternAutomata.Pattern
