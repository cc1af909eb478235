import PatternAutomata.Pattern.Shape
import PatternAutomata.Proofs.Consumption
import PatternAutomata.Proofs.Decimals
import PatternAutomata.Proofs.Parsing

/-!
# The trees that reading builds

Reading puts trees together by a few operations (`Built`), with the bounds that the text
was checked for. What all such trees have in common is proved by induction on how they are
built: neighbouring literals of a concatenation have been joined as far as one level down
(`Settled`), and every node is as reading leaves it (`Regular`), so that it has a text that
can be read (`Writable`).

## Main results

* `join_cases`: the four results of a concatenation that folds literals.
* `Reads.built`: what a text stands for is built by the operations.
* `Built.settled`, `Built.regular`, `Built.writable`: the shape of such trees.
* `Built.bounded`, `Built.narrow`: the bounds and widths of their ranges of numerals.
* `parse_regular`: the bounds and the extensions that a tree relies on have been checked.
-/

namespace PatternAutomata.Pattern

variable {a b p q : Pattern}

/-! ## Concatenations that fold literals -/

/-- The first part of a concatenation; any other pattern as it is. -/
def firstChild : Pattern → Pattern
  | concat a _ => a
  | p => p

/-- The last part of a concatenation; any other pattern as it is. -/
def lastChild : Pattern → Pattern
  | concat _ b => b
  | p => p

/-- Joining the parts of a concatenation leaves it as it is. -/
def SettledHere : Pattern → Prop
  | concat a b =>
    (b.IsLiteral → ¬ a.lastChild.IsLiteral) ∧ (a.IsLiteral → ¬ b.firstChild.IsLiteral)
  | _ => True

/-- Every concatenation in the tree is what joining its parts gives. -/
def Settled (p : Pattern) : Prop := p.Every SettledHere

theorem isLiteral_iff : p.IsLiteral ↔ ∃ t, p.text? = some t := Option.isSome_iff_exists

theorem not_isLiteral_iff : ¬ p.IsLiteral ↔ p.text? = none := by
  rw [IsLiteral, Bool.not_eq_true, Option.isSome_eq_false_iff, Option.isNone_iff_eq_none]

theorem settledHere_of_not_isLiteral (ha : ¬ a.IsLiteral) (hb : ¬ b.IsLiteral) :
    SettledHere (concat a b) := ⟨fun h => absurd h hb, fun h => absurd h ha⟩

/-- A literal goes into the last part of a concatenation, or there is none. -/
theorem extendRight?_cases (a : Pattern) (t : List Char) (ha : ¬ a.IsLiteral) :
    (∃ x y s, a = concat x y ∧ y.text? = some s ∧
      a.extendRight? t = some (concat x (literal (s ++ t)))) ∨
    (¬ a.lastChild.IsLiteral ∧ a.extendRight? t = none) := by
  cases a with
  | concat x y =>
      cases hy : y.text? with
      | some s =>
          left
          exact ⟨x, y, s, rfl, hy, by rw [extendRight?, hy]; rfl⟩
      | none =>
          right
          exact ⟨not_isLiteral_iff.2 hy, by rw [extendRight?, hy]; rfl⟩
  | _ =>
      right
      exact ⟨ha, rfl⟩

/-- A literal goes into the first part of a concatenation, or there is none. -/
theorem extendLeft?_cases (b : Pattern) (s : List Char) (hb : ¬ b.IsLiteral) :
    (∃ x y t, b = concat x y ∧ x.text? = some t ∧
      b.extendLeft? s = some (concat (literal (s ++ t)) y)) ∨
    (¬ b.firstChild.IsLiteral ∧ b.extendLeft? s = none) := by
  cases b with
  | concat x y =>
      cases hx : x.text? with
      | some t =>
          left
          exact ⟨x, y, t, rfl, hx, by rw [extendLeft?, hx]; rfl⟩
      | none =>
          right
          exact ⟨not_isLiteral_iff.2 hx, by rw [extendLeft?, hx]; rfl⟩
  | _ =>
      right
      exact ⟨hb, rfl⟩

/-- Two literals become one, a literal goes into the neighbouring part of a concatenation if
that is a literal, and in all other cases nothing is folded. -/
theorem join_cases (a b : Pattern) :
    (∃ s t, a.text? = some s ∧ b.text? = some t ∧ join a b = literal (s ++ t)) ∨
    (∃ x y s t, a = concat x y ∧ y.text? = some s ∧ b.text? = some t ∧
      join a b = concat x (literal (s ++ t))) ∨
    (∃ x y s t, b = concat x y ∧ a.text? = some s ∧ x.text? = some t ∧
      join a b = concat (literal (s ++ t)) y) ∨
    (join a b = concat a b ∧ SettledHere (concat a b)) := by
  unfold join
  cases ha : a.text? with
  | some s =>
      cases hb : b.text? with
      | some t => exact Or.inl ⟨s, t, rfl, rfl, rfl⟩
      | none =>
          have hb' := not_isLiteral_iff.2 hb
          rcases extendLeft?_cases b s hb' with ⟨x, y, t, rfl, hx, heq⟩ | ⟨hfirst, heq⟩
          · exact Or.inr (Or.inr (Or.inl ⟨x, y, s, t, rfl, rfl, hx, by simp only [heq]; rfl⟩))
          · refine Or.inr (Or.inr (Or.inr ⟨by simp only [heq]; rfl, ?_⟩))
            exact ⟨fun h => absurd h hb', fun _ => hfirst⟩
  | none =>
      have ha' := not_isLiteral_iff.2 ha
      cases hb : b.text? with
      | some t =>
          rcases extendRight?_cases a t ha' with ⟨x, y, s, rfl, hy, heq⟩ | ⟨hlast, heq⟩
          · exact Or.inr (Or.inl ⟨x, y, s, t, rfl, hy, rfl, by simp only [heq]; rfl⟩)
          · refine Or.inr (Or.inr (Or.inr ⟨by simp only [heq]; rfl, ?_⟩))
            exact ⟨fun _ => hlast, fun h => absurd h ha'⟩
      | none =>
          refine Or.inr (Or.inr (Or.inr ⟨rfl, ?_⟩))
          exact settledHere_of_not_isLiteral ha' (not_isLiteral_iff.2 hb)

theorem lastChild_of_isLiteral (h : p.IsLiteral) : p.lastChild = p := by
  cases p with
  | concat => cases h
  | _ => rfl

theorem join_eq_concat (h : SettledHere (concat a b)) : join a b = concat a b := by
  rcases join_cases a b with ⟨s, t, ha, hb, -⟩ | ⟨x, y, s, t, rfl, hy, hb, -⟩ |
    ⟨x, y, s, t, rfl, ha, hx, -⟩ | h'
  · have ha' : a.IsLiteral := isLiteral_iff.2 ⟨s, ha⟩
    have hlast := h.1 (isLiteral_iff.2 ⟨t, hb⟩)
    rw [lastChild_of_isLiteral ha'] at hlast
    exact absurd ha' hlast
  · exact absurd (isLiteral_iff.2 ⟨s, hy⟩) (h.1 (isLiteral_iff.2 ⟨t, hb⟩))
  · exact absurd (isLiteral_iff.2 ⟨t, hx⟩) (h.2 (isLiteral_iff.2 ⟨s, ha⟩))
  · exact h'.1

section Every

variable {holds : Pattern → Prop}

/-- What holds of all literals, and of a concatenation if it holds of both parts, is kept
when literals are folded. -/
theorem join_induction {P : Pattern → Prop} (hliteral : ∀ t, P (literal t))
    (hconcat : ∀ a b, P (concat a b) ↔ P a ∧ P b) (ha : P a) (hb : P b) : P (join a b) := by
  rcases join_cases a b with ⟨s, t, -, -, heq⟩ | ⟨x, y, s, t, rfl, -, -, heq⟩ |
    ⟨x, y, s, t, rfl, -, -, heq⟩ | ⟨heq, -⟩
  · rw [heq]
    exact hliteral _
  · rw [heq]
    exact (hconcat _ _).2 ⟨((hconcat x y).1 ha).1, hliteral _⟩
  · rw [heq]
    exact (hconcat _ _).2 ⟨hliteral _, ((hconcat x y).1 hb).2⟩
  · rw [heq]
    exact (hconcat a b).2 ⟨ha, hb⟩

/-- A condition that all literals and concatenations meet is kept when literals are
folded. -/
theorem every_join (hliteral : ∀ t, holds (literal t)) (hconcat : ∀ a b, holds (concat a b))
    (ha : a.Every holds) (hb : b.Every holds) : (join a b).Every holds :=
  join_induction hliteral (fun a b => ⟨And.right, fun h => ⟨hconcat a b, h⟩⟩) ha hb

theorem Settled.join (ha : a.Settled) (hb : b.Settled) : (join a b).Settled := by
  rcases join_cases a b with ⟨s, t, -, -, heq⟩ | ⟨x, y, s, t, rfl, hy, -, heq⟩ |
    ⟨x, y, s, t, rfl, -, hx, heq⟩ | ⟨heq, hsettled⟩
  · rw [heq]
    exact trivial
  · -- the longer literal stands where a literal stood before
    obtain ⟨⟨hlast, hfirst⟩, hx, -⟩ := ha
    have hy' := isLiteral_iff.2 ⟨s, hy⟩
    rw [heq]
    refine ⟨⟨fun _ => hlast hy', fun hx' => ?_⟩, hx, trivial⟩
    rw [lastChild_of_isLiteral hx'] at hlast
    exact absurd hx' (hlast hy')
  · obtain ⟨⟨hlast, hfirst⟩, -, hy⟩ := hb
    have hx' := isLiteral_iff.2 ⟨t, hx⟩
    rw [heq]
    refine ⟨⟨fun hy' => ?_, fun _ => hfirst hx'⟩, trivial, hy⟩
    have hlast := hlast hy'
    rw [lastChild_of_isLiteral hx'] at hlast
    exact absurd hx' hlast
  · rw [heq]
    exact ⟨hsettled, ha, hb⟩

end Every

/-! ## What reading builds -/

/-- The tree is put together in the ways that reading a text does. -/
inductive Built (n : Notation) (text : List Char) : Pattern → Prop where
  | union {a b : Pattern} : Built n text a → Built n text b → Built n text (union a b)
  | inter {a b : Pattern} :
      n.extensions.intersection = true → Built n text a → Built n text b → Built n text (inter a b)
  | join {a b : Pattern} : Built n text a → Built n text b → Built n text (join a b)
  | optional {a : Pattern} : Built n text a → Built n text (optional a)
  | star {a : Pattern} : Built n text a → Built n text (star a)
  | atLeast {a : Pattern} {min : Nat} :
      min < Cursor.integerLimit → Built n text a → Built n text (atLeast min a)
  | between {a : Pattern} {min max : Nat} :
      min ≤ max → max < Cursor.integerLimit → Built n text a → Built n text (between min max a)
  | complement {a : Pattern} :
      n.extensions.complement = true → Built n text a → Built n text (complement a)
  | exclude {a : Pattern} : a.WrittenOut → Built n text a → Built n text (exclude a)
  | char (c : Char) : Built n text (char c)
  | range (lo hi : Char) : Built n text (range lo hi)
  | anyChar : Built n text anyChar
  | anyWord : n.extensions.anyWord = true → Built n text anyWord
  | empty : n.extensions.empty = true ∨ n.alphabet.isSome = true → Built n text empty
  | literal (word : List Char) : Built n text (literal word)
  | reference {name : String} :
      n.extensions.reference = true → '>' ∉ name.toList → '-' ∉ name.toList →
      Built n text (reference name)
  | numerals {lo hi width : Nat} :
      n.extensions.numerals = true → lo ≤ hi → hi < Cursor.integerLimit →
      (width = 0 ∨ Decimal.length hi ≤ width) → width ≤ text.length →
      Built n text (numerals lo hi width)

theorem WrittenOut.built {n : Notation} {text : List Char} (h : p.WrittenOut) : Built n text p := by
  induction p with
  | union a b iha ihb => exact .union (iha h.1) (ihb h.2)
  | char c => exact .char c
  | range lo hi => exact .range lo hi
  | _ => exact h.elim

theorem writtenOut_escapeClass (letter : Char) : (Parser.escapeClass letter).2.WrittenOut := by
  unfold Parser.escapeClass
  split
  · exact trivial
  · split
    · exact ⟨trivial, trivial⟩
    · exact ⟨⟨⟨trivial, trivial⟩, trivial⟩, trivial⟩

namespace Built

variable {n : Notation} {text : List Char}

theorem foldl_union {ps : List Pattern} (hp : Built n text p) (hps : ∀ q ∈ ps, Built n text q) :
    Built n text (ps.foldl Pattern.union p) := by
  induction ps generalizing p with
  | nil => exact hp
  | cons q ps ih =>
      exact ih (.union hp (hps q (List.mem_cons_self ..)))
        (fun r hr => hps r (List.mem_cons_of_mem q hr))

theorem unionAll {ps : List Pattern} (halphabet : n.alphabet.isSome = true)
    (hps : ∀ q ∈ ps, Built n text q) : Built n text (unionAll ps) := by
  cases ps with
  | nil => exact .empty (Or.inr halphabet)
  | cons p ps =>
      exact foldl_union (hps p (List.mem_cons_self ..))
        (fun q hq => hps q (List.mem_cons_of_mem p hq))

theorem ofInterval (i : Interval) : Built n text (ofInterval i) := by
  unfold Pattern.ofInterval
  split
  · exact .char _
  · exact .range _ _

theorem classEscape (c : Char) : Built n text (Parser.classEscape n.alphabet c) := by
  unfold Parser.classEscape
  cases halphabet : n.alphabet with
  | some a =>
      refine unionAll (by rw [halphabet]; rfl) ?_
      intro q hq
      obtain ⟨i, -, rfl⟩ := List.mem_map.1 hq
      exact ofInterval i
  | none =>
      have hfixed := writtenOut_escapeClass c.toLower
      dsimp only
      split
      · exact .exclude hfixed hfixed.built
      · exact hfixed.built

end Built

section Derivations

open Grammar

variable {n : Notation} {s t rest text : List Char}

theorem writtenOut_of_item (h : Item s p rest) : p.WrittenOut := by
  cases h with
  | single => exact trivial
  | dash => exact ⟨trivial, trivial⟩
  | range => exact trivial

theorem writtenOut_of_items (h : Items s p q rest) (hp : p.WrittenOut) : q.WrittenOut := by
  induction h with
  | done => exact hp
  | more _ hitem _ ih => exact ih ⟨hp, writtenOut_of_item hitem⟩

theorem writtenOut_of_classBody (h : ClassBody s p rest) : p.WrittenOut := by
  cases h with
  | intro hitem hitems => exact writtenOut_of_items hitems (writtenOut_of_item hitem)

theorem lt_of_integer {k : Nat} (h : Integer s k rest) : k < Cursor.integerLimit := by
  cases h
  assumption

theorem built_of_angle (h : Angle n.extensions s p) (hs : '>' ∉ s)
    (hlength : s.length ≤ text.length) : Built n text p := by
  cases h with
  | reference hon hdash =>
      refine .reference hon ?_ ?_
      · rwa [String.toList_ofList]
      · rwa [String.toList_ofList]
  | @numerals lo hi hon hlo hhi =>
      have hlimit := Nat.max_lt.2 ⟨lt_of_integer hlo, lt_of_integer hhi⟩
      rw [List.length_append] at hlength
      refine .numerals hon (Nat.le_trans (Nat.min_le_left _ _) (Nat.le_max_left _ _)) hlimit ?_
        (by split <;> omega)
      obtain ⟨hlo, hlodigits, -⟩ := Parser.whole_integer_iff.1 hlo
      obtain ⟨hhi, hhidigits, -⟩ := Parser.whole_integer_iff.1 hhi
      have hlolength := Decimal.length_read_le hlodigits hlo
      have hhilength := Decimal.length_read_le hhidigits hhi
      by_cases hwidth : lo.length = hi.length
      · right
        rw [if_pos hwidth]
        rcases Nat.le_total (Decimal.read lo) (Decimal.read hi) with hle | hle
        · rwa [Nat.max_eq_right hle, hwidth]
        · rwa [Nat.max_eq_left hle]
      · left
        exact if_neg hwidth

theorem built_of_quantifiers (h : Quantifiers s p q rest) (hp : Built n text p) :
    Built n text q := by
  induction h with
  | done => exact hp
  | more hquantifier _ ih =>
      apply ih
      cases hquantifier with
      | optional => exact .optional hp
      | star => exact .star hp
      | plus => exact .atLeast (by decide) hp
      | braces hrepetition =>
          cases hrepetition with
          | exactly h => exact .between (Nat.le_refl _) (lt_of_integer h) hp
          | atLeast h => exact .atLeast (lt_of_integer h) hp
          | between _ h hle => exact .between hle (lt_of_integer h) hp

mutual

theorem built_of_alternatives {s rest : List Char} {p : Pattern} :
    Alternatives n s p rest → s <:+ text → Built n text p
  | .last h _, hs => built_of_conjunction h hs
  | .more h h', hs =>
    .union (built_of_conjunction h hs)
      (built_of_alternatives h' ((List.suffix_cons _ _).trans (h.consumes.suffix.trans hs)))

theorem built_of_conjunction {s rest : List Char} {p : Pattern} :
    Conjunction n s p rest → s <:+ text → Built n text p
  | .last h _, hs => built_of_sequence h hs
  | .more hon h h', hs =>
    .inter hon (built_of_sequence h hs)
      (built_of_conjunction h' ((List.suffix_cons _ _).trans (h.consumes.suffix.trans hs)))

theorem built_of_sequence {s rest : List Char} {p : Pattern} :
    Sequence n s p rest → s <:+ text → Built n text p
  | .last h _, hs => built_of_quantified h hs
  | .more h _ h', hs =>
    .join (built_of_quantified h hs) (built_of_sequence h' (h.consumes.suffix.trans hs))

theorem built_of_quantified {s rest : List Char} {p : Pattern} :
    Quantified n s p rest → s <:+ text → Built n text p
  | .intro h h', hs => built_of_quantifiers h' (built_of_negated h hs)

theorem built_of_negated {s rest : List Char} {p : Pattern} :
    Negated n s p rest → s <:+ text → Built n text p
  | .tilde hon h, hs => .complement hon (built_of_negated h ((List.suffix_cons _ _).trans hs))
  | .bare _ h, hs => built_of_simple h hs

theorem built_of_simple {s rest : List Char} {p : Pattern} :
    Simple n s p rest → s <:+ text → Built n text p
  | .bracket _ h, _ => (writtenOut_of_classBody h).built
  | .negatedBracket h, _ => .exclude (writtenOut_of_classBody h) (writtenOut_of_classBody h).built
  | .anyChar _, _ => .anyChar
  | .empty _ hon, _ => .empty (Or.inl hon)
  | .anyWord _ hon, _ => .anyWord hon
  | .quoted _ _, _ => .literal _
  | .emptyGroup _, _ => .literal _
  | .group h _ h', hs =>
    built_of_alternatives h' (h.suffix.trans ((List.suffix_cons _ _).trans hs))
  | .angle _ hmem h, hs =>
    built_of_angle h hmem (by
      have hle := hs.length_le
      simp only [List.length_cons, List.length_append] at hle
      omega)
  | .classEscape _ _, _ => .classEscape _
  | .escape _ _, _ => .char _
  | .plain _ _, _ => .char _

end

/-- What a text stands for is built in the ways that reading does. -/
theorem Reads.built (h : Reads n s p) : Built n s p := by
  cases h with
  | empty => exact .literal []
  | text _ h => exact built_of_alternatives h (List.suffix_refl s)

end Derivations

/-! ## What holds of all such trees -/

/-- The node has a text that can be read, though perhaps with another width. -/
def WritableHere : Pattern → Prop
  | atLeast min _ => min < Cursor.integerLimit
  | between min max _ => min ≤ max ∧ max < Cursor.integerLimit
  | numerals lo hi width =>
    lo ≤ hi ∧ hi < Cursor.integerLimit ∧ (width = 0 ∨ Decimal.length hi ≤ width)
  | reference name => '>' ∉ name.toList ∧ '-' ∉ name.toList
  | _ => True

/-- The tree has a text that can be read. -/
def Writable (p : Pattern) : Prop := p.Every WritableHere

theorem RegularHere.writableHere {e : Extensions} {hasAlphabet : Bool}
    (h : RegularHere e hasAlphabet p) : WritableHere p := by
  cases p with
  | numerals lo hi width =>
      obtain ⟨hle, hlimit, hwidth, -⟩ := h
      exact ⟨hle, hlimit, hwidth⟩
  | reference name =>
      obtain ⟨hclose, hdash, -⟩ := h
      exact ⟨hclose, hdash⟩
  | atLeast | between => exact h
  | _ => exact trivial

theorem Regular.join {e : Extensions} {hasAlphabet : Bool} (ha : a.Regular e hasAlphabet)
    (hb : b.Regular e hasAlphabet) : (join a b).Regular e hasAlphabet where
  nodes := every_join (fun _ => trivial) (fun _ _ => trivial) ha.nodes hb.nodes
  confined := join_induction (fun _ => trivial) (fun _ _ => Iff.rfl) ha.confined hb.confined

namespace Built

variable {n : Notation} {text : List Char}

theorem settled (h : Built n text p) : p.Settled := by
  induction h with
  | union _ _ iha ihb => exact ⟨trivial, iha, ihb⟩
  | inter _ _ _ iha ihb => exact ⟨trivial, iha, ihb⟩
  | join _ _ iha ihb => exact iha.join ihb
  | optional _ ih => exact ⟨trivial, ih⟩
  | star _ ih => exact ⟨trivial, ih⟩
  | atLeast _ _ ih => exact ⟨trivial, ih⟩
  | between _ _ _ ih => exact ⟨trivial, ih⟩
  | complement _ _ ih => exact ⟨trivial, ih⟩
  | exclude _ _ ih => exact ⟨trivial, trivial, trivial, ih⟩
  | char | range | anyChar | anyWord | empty | literal | reference | numerals => exact trivial

/-- Every operation checks what a node needs before it makes the node. -/
theorem regular (h : Built n text p) : p.Regular n.extensions n.alphabet.isSome := by
  induction h with
  | union _ _ iha ihb =>
      exact ⟨⟨trivial, iha.nodes, ihb.nodes⟩, iha.confined, ihb.confined⟩
  | inter hon _ _ iha ihb =>
      exact ⟨⟨trivial, iha.nodes, ihb.nodes⟩, .inr ⟨hon, iha.confined, ihb.confined⟩⟩
  | join _ _ iha ihb => exact iha.join ihb
  | optional _ ih => exact ⟨⟨trivial, ih.nodes⟩, ih.confined⟩
  | star _ ih => exact ⟨⟨trivial, ih.nodes⟩, ih.confined⟩
  | atLeast hmin _ ih => exact ⟨⟨hmin, ih.nodes⟩, ih.confined⟩
  | between hle hmax _ ih => exact ⟨⟨⟨hle, hmax⟩, ih.nodes⟩, ih.confined⟩
  | complement hon _ ih => exact ⟨⟨trivial, ih.nodes⟩, hon, ih.confined⟩
  | exclude hclass _ ih =>
      exact ⟨⟨trivial, trivial, trivial, ih.nodes⟩, .inl ⟨_, hclass, rfl⟩⟩
  | char | range | anyChar | literal => exact ⟨trivial, trivial⟩
  | anyWord hon => exact ⟨hon, trivial⟩
  | empty hon => exact ⟨hon, trivial⟩
  | reference hon hclose hdash => exact ⟨⟨hclose, hdash, hon⟩, trivial⟩
  | numerals hon hle hlimit hwidth _ => exact ⟨⟨hle, hlimit, hwidth, hon⟩, trivial⟩

theorem writable (h : Built n text p) : p.Writable :=
  h.regular.nodes.imp fun _ => RegularHere.writableHere

/-- The bounds of ranges of numerals have been checked. -/
theorem bounded (h : Built n text p) : p.Bounded := by
  refine h.writable.imp fun q hq => ?_
  cases q with
  | numerals lo hi width => exact ⟨Nat.lt_of_le_of_lt hq.1 hq.2.1, hq.2.1⟩
  | _ => exact trivial

/-- A width is the length of a part of the text. -/
theorem narrow (h : Built n text p) (htext : text.length < Cursor.integerLimit) : p.Narrow := by
  induction h with
  | union _ _ iha ihb => exact ⟨trivial, iha, ihb⟩
  | inter _ _ _ iha ihb => exact ⟨trivial, iha, ihb⟩
  | join _ _ iha ihb => exact every_join (fun _ => trivial) (fun _ _ => trivial) iha ihb
  | optional _ ih => exact ⟨trivial, ih⟩
  | star _ ih => exact ⟨trivial, ih⟩
  | atLeast _ _ ih => exact ⟨trivial, ih⟩
  | between _ _ _ ih => exact ⟨trivial, ih⟩
  | complement _ _ ih => exact ⟨trivial, ih⟩
  | exclude _ _ ih => exact ⟨trivial, trivial, trivial, ih⟩
  | numerals _ _ _ _ hlength => exact Nat.lt_of_le_of_lt hlength htext
  | char | range | anyChar | anyWord | empty | literal | reference => exact trivial

end Built

/-- What reading returns has bounds that fit, needs no extension that is off, and has
intersections and complements only in classes unless their extension is on. -/
theorem parse_regular (n : Notation) (s : List Char) (p : Pattern) (h : parse n s = .ok p) :
    p.Regular n.extensions n.alphabet.isSome := (parse_eq_ok_iff.1 h).built.regular

/-- Names, numerals and the sign for any word are on; neither the sign for no word nor the
signs for intersection and complement are. -/
def angled : Notation :=
  ⟨{ Extensions.none with anyWord := true, reference := true, numerals := true },
    some (.ofList ['b', 'a'])⟩

/-- The class in brackets takes characters out of the alphabet, and the escape stands for no
character of it. The signs of extensions that are off are plain characters. -/
def angledText : List Char := "[^a-c]\x7b2,3\x7d<x1><12-007>@|\\d&~#".toList

/-- What the text stands for. -/
def angledRead : Pattern :=
  union
    (concat (between 2 3 (exclude (range 'a' 'c')))
      (concat (reference "x1") (concat (numerals 7 12 0) anyWord)))
    (concat empty (literal ['&', '~', '#']))

theorem parse_regular_angled :
    parse angled angledText = .ok angledRead ∧ angledRead.Regular angled.extensions true := by
  have hread : parse angled angledText = .ok angledRead := by decide +kernel
  exact ⟨hread, parse_regular _ _ _ hread⟩

end PatternAutomata.Pattern
