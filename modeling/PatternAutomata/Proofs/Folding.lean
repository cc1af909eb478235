import PatternAutomata.Proofs.Consumption
import PatternAutomata.Proofs.Rereading

/-!
# Folding literals

Concatenation joins literals that come to stand side by side. For compilation this makes
no difference: the joined tree has the same references in the same order and the same
language, and these decide what a pattern is compiled to.

The shape of the tree is another matter. Joining looks at the operands and at the nearer
part of an operand that is a concatenation, but not further down. So in a tree that is put
together by joining no literal has a literal for its neighbour, nor a concatenation that
has one for its nearer part, and these are all the trees that can be put together in this
way (`joined_iff_settled`). A literal further down at the nearer end is overlooked, as in
`(..a)b`. One step keeps literals joined throughout if and only if it overlooks none
(`folded_join_iff`). A sequence is joined from its end and its elements are no
concatenations themselves unless they are groups, so no literal is overlooked in a text
without groups.

## Main results

* `compile_join`: joining literals changes nothing that compilation sees.
* `joined_folds`: which literals are joined.
-/

namespace PatternAutomata.Pattern

open Resolving

variable {alphabet : Option Alphabet} {env : Environment} {a b p q x y : Pattern}

/-! ## Compilation -/

/-- Whatever is known about the automata of the environment, compiling fails for the joined
pattern as for the concatenation and asks the same questions. -/
theorem forget_compile_join (alphabet : Option Alphabet) (env : Environment) (a b : Pattern) :
    forget ((join a b).compile alphabet env) = forget ((concat a b).compile alphabet env) := by
  simp [references]

/-- A failure does not depend on the value of a computation. -/
theorem outcome_error_congr {x y : Resolving Dfa} {e : UnresolvedReference}
    (h : forget x = forget y) (hx : x.outcome.1 = .error e) : y.outcome.1 = .error e := by
  have hforget : (forget y).outcome = (.error e, x.outcome.2) := by
    rw [← h, outcome_forget, hx]
    rfl
  rw [outcome_error_of_forget hforget]

/-- A concatenation is compiled in the same way whether its literals are joined or not: to
the same automaton, numbers included, or up to the same reference that is not found, which
does not depend on what the automata of the environment are like. -/
theorem compile_join (alphabet : Option Alphabet) (env : Environment) (a b : Pattern) :
    (∀ e, ((join a b).compile alphabet env).outcome.1 = .error e ↔
      ((concat a b).compile alphabet env).outcome.1 = .error e) ∧
    ((join a b).compile alphabet env).outcome.2 =
      ((concat a b).compile alphabet env).outcome.2 ∧
    (env.Supplies Dfa.WellFormed →
      ((join a b).compile alphabet env).outcome =
        ((concat a b).compile alphabet env).outcome) := by
  have hforget := forget_compile_join alphabet env a b
  have hasked := congrArg (fun x => (outcome x).2) hforget
  simp only [outcome_forget] at hasked
  refine ⟨fun e => ⟨?_, ?_⟩, hasked, fun h => ?_⟩
  · exact outcome_error_congr hforget
  · exact outcome_error_congr hforget.symm
  · refine outcome_compile_eq h h ?_ fun _ _ => ?_
    · rw [references_join, references]
    · rw [languageOf_join, languageOf]

/-- The literal at the end becomes longer, and the automaton stays the same, with an
automaton in the environment that is not minimal. -/
theorem compile_join_splitRange :
    (Environment.ofAutomata fun _ => Dfa.splitRange).Supplies Dfa.WellFormed ∧
    join (concat (reference "split") (literal ['x'])) (char 'y') =
      concat (reference "split") (literal ['x', 'y']) ∧
    ((concat (reference "split") (literal ['x', 'y'])).compile none
      (.ofAutomata fun _ => Dfa.splitRange)).outcome =
        (.ok (Dfa.concat [Dfa.ofRange 'a' 'c', Dfa.ofWord ['x', 'y']]).minimized, []) := by
  have hsupplies : (Environment.ofAutomata fun _ => Dfa.splitRange).Supplies Dfa.WellFormed :=
    Environment.supplies_ofAutomata fun _ => ⟨by decide, by decide, by decide⟩
  have hjoin : join (concat (reference "split") (literal ['x'])) (char 'y') =
      concat (reference "split") (literal ['x', 'y']) := rfl
  have hconcat : ((concat (concat (reference "split") (literal ['x'])) (char 'y')).compile none
      (.ofAutomata fun _ => Dfa.splitRange)).outcome =
        (.ok (Dfa.concat [Dfa.ofRange 'a' 'c', Dfa.ofWord ['x', 'y']]).minimized, []) := by
    decide +kernel
  refine ⟨hsupplies, hjoin, ?_⟩
  rw [← hjoin, (compile_join none _ _ _).2.2 hsupplies, hconcat]

/-! ## Trees without concatenations -/

/-- The tree is no concatenation. -/
def Single (p : Pattern) : Prop := ∀ a b, p ≠ concat a b

theorem Single.firstPart_eq (h : Single p) : p.firstPart = p := by
  cases p with
  | concat a b => exact absurd rfl (h a b)
  | _ => rfl

theorem Single.lastPart_eq (h : Single p) : p.lastPart = p := by
  cases p with
  | concat a b => exact absurd rfl (h a b)
  | _ => rfl

/-- The first part of a tree that is no concatenation is not further down. -/
theorem Single.firstPart_eq_firstChild (h : Single p) : p.firstPart = p.firstChild := by
  cases p with
  | concat a b => exact absurd rfl (h a b)
  | _ => rfl

theorem Single.lastPart_eq_lastChild (h : Single p) : p.lastPart = p.lastChild := by
  cases p with
  | concat a b => exact absurd rfl (h a b)
  | _ => rfl

theorem single_of_isLiteral (h : p.IsLiteral) : Single p := by
  rintro a b rfl
  cases h

theorem single_unionAll {ps : List Pattern} (h : ∀ p ∈ ps, p.Every Single) :
    (unionAll ps).Every Single := by
  cases ps with
  | nil => exact nofun
  | cons p ps =>
      refine List.foldlRecOn (motive := fun q => q.Every Single) ps union
        (h p (List.mem_cons_self ..)) ?_
      intro q hq r hr
      exact ⟨nofun, hq, h r (List.mem_cons_of_mem p hr)⟩

theorem single_ofChars (cs : List Char) : (ofChars cs).Every Single := by
  refine single_unionAll fun q hq => ?_
  obtain ⟨i, -, rfl⟩ := List.mem_map.1 hq
  unfold ofInterval
  split
  · exact nofun
  · exact nofun

/-! ## Trees that are put together by joining -/

/-- The tree is put together by the operations for patterns; concatenations are joined. -/
inductive Joined : Pattern → Prop where
  | union {a b : Pattern} : Joined a → Joined b → Joined (union a b)
  | join {a b : Pattern} : Joined a → Joined b → Joined (join a b)
  | inter {a b : Pattern} : Joined a → Joined b → Joined (inter a b)
  | optional {a : Pattern} : Joined a → Joined (optional a)
  | star {a : Pattern} : Joined a → Joined (star a)
  | atLeast {a : Pattern} (min : Nat) : Joined a → Joined (atLeast min a)
  | between {a : Pattern} (min max : Nat) : Joined a → Joined (between min max a)
  | complement {a : Pattern} : Joined a → Joined (complement a)
  | exclude {a : Pattern} : Joined a → Joined (exclude a)
  | char (c : Char) : Joined (char c)
  | range (lo hi : Char) : Joined (range lo hi)
  | ofChars (cs : List Char) : Joined (ofChars cs)
  | anyChar : Joined anyChar
  | anyWord : Joined anyWord
  | empty : Joined empty
  | literal (text : List Char) : Joined (literal text)
  | reference (name : String) : Joined (reference name)
  | numerals (lo hi width : Nat) : Joined (numerals lo hi width)

theorem settledHere_of_single (h : Single p) : SettledHere p := by
  cases p with
  | concat a b => exact absurd rfl (h a b)
  | _ => trivial

theorem Joined.settled (h : Joined p) : p.Settled := by
  induction h with
  | union _ _ iha ihb | inter _ _ iha ihb => exact ⟨trivial, iha, ihb⟩
  | join _ _ iha ihb => exact iha.join ihb
  | optional _ ih | star _ ih | atLeast _ _ ih | between _ _ _ ih | complement _ ih =>
      exact ⟨trivial, ih⟩
  | exclude _ ih => exact ⟨trivial, trivial, trivial, ih⟩
  | ofChars cs => exact (single_ofChars cs).imp fun _ => settledHere_of_single
  | char | range | anyChar | anyWord | empty | literal | reference | numerals => exact trivial

theorem Settled.joined (h : p.Settled) : Joined p := by
  induction p with
  | union a b iha ihb => exact .union (iha h.2.1) (ihb h.2.2)
  | concat a b iha ihb =>
      rw [← join_eq_concat h.1]
      exact .join (iha h.2.1) (ihb h.2.2)
  | inter a b iha ihb => exact .inter (iha h.2.1) (ihb h.2.2)
  | optional a ih => exact .optional (ih h.2)
  | star a ih => exact .star (ih h.2)
  | atLeast min a ih => exact .atLeast min (ih h.2)
  | between min max a ih => exact .between min max (ih h.2)
  | complement a ih => exact .complement (ih h.2)
  | char c => exact .char c
  | range lo hi => exact .range lo hi
  | anyChar => exact .anyChar
  | anyWord => exact .anyWord
  | empty => exact .empty
  | literal text => exact .literal text
  | reference name => exact .reference name
  | numerals lo hi width => exact .numerals lo hi width

theorem joined_iff_settled : Joined p ↔ p.Settled := ⟨Joined.settled, Settled.joined⟩

/-! ## Literals that are overlooked -/

theorem foldedHere_of_single (h : Single p) : FoldedHere p := by
  cases p with
  | concat a b => exact absurd rfl (h a b)
  | _ => trivial

theorem folded_of_isLiteral (h : p.IsLiteral) : p.Folded := by
  cases p with
  | char | literal => exact trivial
  | _ => cases h

/-- A literal has another one at the nearer end of its neighbour, further down than joining
looks. -/
def Overlooks (a b : Pattern) : Prop :=
  (b.IsLiteral ∧ a.lastPart.IsLiteral ∧ ¬ a.lastChild.IsLiteral) ∨
    (a.IsLiteral ∧ b.firstPart.IsLiteral ∧ ¬ b.firstChild.IsLiteral)

/-- No literal is overlooked where the nearer ends are not further down. -/
theorem not_overlooks (ha : a.lastPart = a.lastChild) (hb : b.firstPart = b.firstChild) :
    ¬ Overlooks a b := by
  rintro (⟨-, hpart, hchild⟩ | ⟨-, hpart, hchild⟩)
  · exact hchild (ha ▸ hpart)
  · exact hchild (hb ▸ hpart)

theorem not_overlooks_of_foldedHere (h : FoldedHere (concat a b)) : ¬ Overlooks a b := by
  obtain ⟨-, hlast, hfirst⟩ := h
  rintro (⟨hb, hpart, -⟩ | ⟨ha, hpart, -⟩)
  · exact hlast hb hpart
  · exact hfirst ha hpart

theorem not_literals_of_settledHere (h : SettledHere (concat a b)) :
    ¬ (a.IsLiteral ∧ b.IsLiteral) := by
  rintro ⟨ha, hb⟩
  have hlast := h.1 hb
  rw [lastChild_of_isLiteral ha] at hlast
  exact hlast ha

/-- In a concatenation that joining leaves as it is, literals are joined unless one is
overlooked. -/
theorem foldedHere_iff (h : SettledHere (concat a b)) :
    FoldedHere (concat a b) ↔ ¬ Overlooks a b := by
  refine ⟨not_overlooks_of_foldedHere, fun hnot => ⟨not_literals_of_settledHere h, ?_, ?_⟩⟩
  · intro hb hpart
    exact hnot (Or.inl ⟨hb, hpart, h.1 hb⟩)
  · intro ha hpart
    exact hnot (Or.inr ⟨ha, hpart, h.2 ha⟩)

/-- The node does not overlook a literal. -/
def OverlooksNone : Pattern → Prop
  | concat a b => ¬ Overlooks a b
  | _ => True

/-- In a tree that is put together by joining, literals are joined throughout unless some
concatenation overlooks one. -/
theorem Settled.folded_iff (h : p.Settled) : p.Folded ↔ p.Every OverlooksNone := by
  constructor
  · refine Every.imp fun q hq => ?_
    cases q with
    | concat a b => exact not_overlooks_of_foldedHere hq
    | _ => trivial
  · intro hnone
    refine (h.and hnone).imp fun q hq => ?_
    cases q with
    | concat a b => exact (foldedHere_iff hq.1).2 hq.2
    | _ => trivial

/-- Whether literals are joined where one is the last part does not depend on its text. -/
theorem folded_concat_congr (hx : x.IsLiteral) (hy : y.IsLiteral) :
    (concat a x).Folded ↔ (concat a y).Folded := by
  show FoldedHere (concat a x) ∧ a.Folded ∧ x.Folded ↔
    FoldedHere (concat a y) ∧ a.Folded ∧ y.Folded
  simp only [FoldedHere, (single_of_isLiteral hx).firstPart_eq,
    (single_of_isLiteral hy).firstPart_eq, hx, hy, folded_of_isLiteral hx, folded_of_isLiteral hy]

theorem folded_congr_concat (hx : x.IsLiteral) (hy : y.IsLiteral) :
    (concat x b).Folded ↔ (concat y b).Folded := by
  show FoldedHere (concat x b) ∧ x.Folded ∧ b.Folded ↔
    FoldedHere (concat y b) ∧ y.Folded ∧ b.Folded
  simp only [FoldedHere, (single_of_isLiteral hx).lastPart_eq,
    (single_of_isLiteral hy).lastPart_eq, hx, hy, folded_of_isLiteral hx, folded_of_isLiteral hy]

/-- Joining keeps literals joined throughout, unless it overlooks one. -/
theorem folded_join_iff : (join a b).Folded ↔ a.Folded ∧ b.Folded ∧ ¬ Overlooks a b := by
  rcases join_cases a b with ⟨s, t, ha, hb, heq⟩ | ⟨x, y, s, t, rfl, hy, hb, heq⟩ |
    ⟨x, y, s, t, rfl, ha, hx, heq⟩ | ⟨heq, hsettled⟩
  · have ha' := isLiteral_iff.2 ⟨s, ha⟩
    have hb' := isLiteral_iff.2 ⟨t, hb⟩
    have hnot : ¬ Overlooks a b :=
      not_overlooks (single_of_isLiteral ha').lastPart_eq_lastChild
        (single_of_isLiteral hb').firstPart_eq_firstChild
    rw [heq]
    exact iff_of_true trivial ⟨folded_of_isLiteral ha', folded_of_isLiteral hb', hnot⟩
  · have hy' := isLiteral_iff.2 ⟨s, hy⟩
    have hb' := isLiteral_iff.2 ⟨t, hb⟩
    have hnot : ¬ Overlooks (concat x y) b :=
      not_overlooks (single_of_isLiteral hy').lastPart_eq
        (single_of_isLiteral hb').firstPart_eq_firstChild
    rw [heq, folded_concat_congr (x := literal (s ++ t)) rfl hy']
    exact ⟨fun h => ⟨h, folded_of_isLiteral hb', hnot⟩, fun h => h.1⟩
  · have ha' := isLiteral_iff.2 ⟨s, ha⟩
    have hx' := isLiteral_iff.2 ⟨t, hx⟩
    have hnot : ¬ Overlooks a (concat x y) :=
      not_overlooks (single_of_isLiteral ha').lastPart_eq_lastChild
        (single_of_isLiteral hx').firstPart_eq
    rw [heq, folded_congr_concat (x := literal (s ++ t)) rfl hx']
    exact ⟨fun h => ⟨folded_of_isLiteral ha', h, hnot⟩, fun h => h.2.1⟩
  · rw [heq, ← foldedHere_iff hsettled]
    exact ⟨fun ⟨hhere, ha, hb⟩ => ⟨ha, hb, hhere⟩, fun ⟨ha, hb, hhere⟩ => ⟨hhere, ha, hb⟩⟩

/-! ## Texts without groups -/

/-- The literals in the tree are joined, and it is no concatenation. -/
structure Whole (p : Pattern) : Prop where
  folded : p.Folded
  single : Single p

/-- The literals in the tree are joined, and if it is a concatenation, it does not begin
with another one. -/
structure Chain (p : Pattern) : Prop where
  folded : p.Folded
  first : p.firstPart = p.firstChild

theorem Whole.chain (h : Whole p) : Chain p := ⟨h.folded, h.single.firstPart_eq_firstChild⟩

theorem Whole.join (ha : Whole a) (hb : Chain b) : Chain (join a b) := by
  refine ⟨folded_join_iff.2 ⟨ha.folded, hb.folded, ?_⟩, ?_⟩
  · exact not_overlooks ha.single.lastPart_eq_lastChild hb.first
  · rcases join_cases a b with ⟨s, t, -, -, heq⟩ | ⟨x, y, s, t, rfl, -, -, heq⟩ |
      ⟨x, y, s, t, rfl, -, -, heq⟩ | ⟨heq, -⟩
    · rw [heq]
      rfl
    · exact absurd rfl (ha.single x y)
    · rw [heq]
      rfl
    · rw [heq]
      exact ha.single.firstPart_eq

/-- A tree without concatenations has no literals side by side. -/
theorem whole_of_single (h : p.Every Single) : Whole p :=
  ⟨h.imp fun _ => foldedHere_of_single, h.here⟩

section Derivations

open Grammar

variable {n : Notation} {s t rest : List Char}

theorem single_of_item (h : Item s p rest) : p.Every Single := by
  cases h with
  | single => exact nofun
  | dash => exact ⟨nofun, nofun, nofun⟩
  | range => exact nofun

theorem single_of_items (h : Items s p q rest) (hp : p.Every Single) : q.Every Single := by
  induction h with
  | done => exact hp
  | more _ hitem _ ih => exact ih ⟨nofun, hp, single_of_item hitem⟩

theorem single_of_classBody (h : ClassBody s p rest) : p.Every Single := by
  cases h with
  | intro hitem hitems => exact single_of_items hitems (single_of_item hitem)

theorem single_exclude (h : p.Every Single) : (exclude p).Every Single :=
  ⟨nofun, nofun, nofun, h⟩

theorem single_classEscape (alphabet : Option Alphabet) (c : Char) :
    (Parser.classEscape alphabet c).Every Single := by
  unfold Parser.classEscape
  cases alphabet with
  | some a => exact single_ofChars _
  | none =>
      have hfixed : (Parser.escapeClass c.toLower).2.Every Single := by
        unfold Parser.escapeClass
        split
        · exact nofun
        · split
          · exact ⟨nofun, nofun, nofun⟩
          · exact ⟨nofun, ⟨nofun, ⟨nofun, nofun, nofun⟩, nofun⟩, nofun⟩
      dsimp only
      split
      · exact single_exclude hfixed
      · exact hfixed

theorem whole_of_angle {e : Extensions} (h : Angle e s p) : Whole p := by
  cases h with
  | reference => exact ⟨trivial, nofun⟩
  | numerals => exact ⟨trivial, nofun⟩

theorem whole_of_quantifiers (h : Quantifiers s p q rest) (hp : Whole p) : Whole q := by
  induction h with
  | done => exact hp
  | more hquantifier _ ih =>
      apply ih
      cases hquantifier with
      | optional | star | plus => exact ⟨⟨trivial, hp.folded⟩, nofun⟩
      | braces hrepetition =>
          cases hrepetition with
          | exactly | atLeast | between => exact ⟨⟨trivial, hp.folded⟩, nofun⟩

/-- Without a group, what is not composed is no concatenation. -/
theorem whole_of_simple (h : Simple n s p rest) (hs : '(' ∉ s) : Whole p := by
  cases h with
  | bracket _ h => exact whole_of_single (single_of_classBody h)
  | negatedBracket h => exact whole_of_single (single_exclude (single_of_classBody h))
  | classEscape => exact whole_of_single (single_classEscape _ _)
  | angle _ _ h => exact whole_of_angle h
  | emptyGroup | group => exact absurd (List.mem_cons_self ..) hs
  | anyChar | empty | anyWord | quoted | escape | plain => exact ⟨trivial, nofun⟩

theorem whole_of_negated {s rest : List Char} {p : Pattern} :
    Negated n s p rest → '(' ∉ s → Whole p
  | .tilde _ h, hs =>
    ⟨⟨trivial, (whole_of_negated h (List.not_mem_of_not_mem_cons hs)).folded⟩, nofun⟩
  | .bare _ h, hs => whole_of_simple h hs

theorem whole_of_quantified (h : Quantified n s p rest) (hs : '(' ∉ s) : Whole p := by
  cases h with
  | intro h h' => exact whole_of_quantifiers h' (whole_of_negated h hs)

theorem not_mem_of_consumes (h : Consumes s rest) (hs : '(' ∉ s) : '(' ∉ rest :=
  fun hmem => hs (h.suffix.subset hmem)

/-- A sequence is joined from its end. -/
theorem chain_of_sequence {s rest : List Char} {p : Pattern} :
    Sequence n s p rest → '(' ∉ s → Chain p
  | .last h _, hs => (whole_of_quantified h hs).chain
  | .more h _ h', hs =>
    (whole_of_quantified h hs).join (chain_of_sequence h' (not_mem_of_consumes h.consumes hs))

theorem folded_of_conjunction {s rest : List Char} {p : Pattern} :
    Conjunction n s p rest → '(' ∉ s → p.Folded
  | .last h _, hs => (chain_of_sequence h hs).folded
  | .more _ h h', hs =>
    ⟨trivial, (chain_of_sequence h hs).folded, folded_of_conjunction h'
      (List.not_mem_of_not_mem_cons (not_mem_of_consumes h.consumes hs))⟩

theorem folded_of_alternatives {s rest : List Char} {p : Pattern} :
    Alternatives n s p rest → '(' ∉ s → p.Folded
  | .last h _, hs => folded_of_conjunction h hs
  | .more h h', hs =>
    ⟨trivial, folded_of_conjunction h hs, folded_of_alternatives h'
      (List.not_mem_of_not_mem_cons (not_mem_of_consumes h.consumes hs))⟩

theorem Reads.folded (h : Reads n s p) (hs : '(' ∉ s) : p.Folded := by
  cases h with
  | empty => exact trivial
  | text _ h => exact folded_of_alternatives h hs

end Derivations

/-! ## Which literals are joined -/

/-- What reading returns is put together by joining. The trees that are put together in this
way are those in which no literal has a literal for its neighbour, nor a concatenation whose
nearer part is one. In such a tree literals are joined with the ends of their neighbours, at
any depth, if and only if no concatenation overlooks one. Joining two trees may overlook one;
reading a text without groups never does. -/
theorem joined_folds (n : Notation) (s : List Char) (p : Pattern) :
    (parse n s = .ok p → Joined p ∧ ('(' ∉ s → p.Folded)) ∧
    (Joined p ↔ p.Settled) ∧
    (Joined p → (p.Every fun q => ∀ a b, q = concat a b → ¬ (a.IsLiteral ∧ b.IsLiteral)) ∧
      (p.Folded ↔ p.Every OverlooksNone)) ∧
    ∀ a b, (join a b).Folded ↔ a.Folded ∧ b.Folded ∧ ¬ Overlooks a b := by
  refine ⟨fun hread => ?_, joined_iff_settled, fun h => ⟨?_, h.settled.folded_iff⟩,
    fun a b => folded_join_iff⟩
  · have hreads := parse_eq_ok_iff.1 hread
    exact ⟨hreads.built.settled.joined, hreads.folded⟩
  · refine h.settled.imp fun q hq a b heq => ?_
    rw [heq] at hq
    exact not_literals_of_settledHere hq

/-- A class, literals that are joined one by one from the end, and any character. -/
def ungrouped : List Char := "[xy]ab\"cd\"e.".toList

/-- What the text stands for. -/
def ungroupedRead : Pattern :=
  concat (union (char 'x') (char 'y')) (concat (literal ['a', 'b', 'c', 'd', 'e']) anyChar)

theorem joined_folds_ungrouped :
    '(' ∉ ungrouped ∧ parse ⟨.all, none⟩ ungrouped = .ok ungroupedRead ∧
    Joined ungroupedRead ∧ ungroupedRead.Folded := by
  have hgroup : '(' ∉ ungrouped := by decide
  have hread : parse ⟨.all, none⟩ ungrouped = .ok ungroupedRead := by decide +kernel
  obtain ⟨hjoined, hfolded⟩ := (joined_folds _ _ _).1 hread
  exact ⟨hgroup, hread, hjoined, hfolded hgroup⟩

/-- The literal at the end of the group is two levels down. -/
theorem joined_not_folded :
    ¬ ∀ (n : Notation) (s : List Char) (p : Pattern), parse n s = .ok p → p.Folded := by
  intro h
  have hread : parse ⟨.all, none⟩ "(..a)b".toList =
      .ok (concat (concat anyChar (concat anyChar (char 'a'))) (char 'b')) := by
    decide +kernel
  obtain ⟨⟨-, hlast, -⟩, -⟩ := h _ _ _ hread
  exact hlast rfl rfl

end PatternAutomata.Pattern
