import PatternAutomata.Proofs.Groups
import PatternAutomata.Proofs.PrintableAlphabet
import PatternAutomata.Proofs.Substitution
import PatternAutomata.Proofs.Weights
import PatternAutomata.Regex

/-!
# Classes as sets of characters

A class in brackets stands for a set of characters, which its items tell: single characters,
ranges, and a dash before the closing bracket. `Grammar.Class` reads this set off the text.
A class that begins with a circumflex stands for the rest of the active alphabet. The tree
that is read from a class has the set in two ways, as the characters that it mentions and in
the words of its automaton, which consist of one character each.

The class escapes divide an alphabet that is set: what passes the test of an escape belongs
to the lower-case letter, the rest to the upper-case one.

## Main results

* `exists_class`, `exists_simple_of_class`: what is read from a class describes its set.
* `picks_ofChars`: the tree for some characters.
* `ofText_classes`: classes and class escapes.
-/

namespace PatternAutomata

/-! ## The set of a class -/

namespace Grammar

/-- The characters that an item of a class stands for. The bounds of a range may be in the
wrong order, and then there are none. -/
inductive ItemSet : List Char → Set Char → List Char → Prop where
  | single {s rest : List Char} {c : Char} :
      Member s c rest → rest.head? ≠ some '-' → ItemSet s {c} rest
  | dash {s rest : List Char} {c : Char} :
      Member s c ('-' :: ']' :: rest) → ItemSet s {c, '-'} (']' :: rest)
  | range {s t rest : List Char} {lo hi : Char} :
      Member s lo ('-' :: t) → t.head? ≠ some ']' → Member t hi rest →
      ItemSet s {c | lo ≤ c ∧ c ≤ hi} rest

/-- The characters of the items up to the closing bracket, of which there is at least one. -/
inductive ItemSets : List Char → Set Char → List Char → Prop where
  | last {s rest : List Char} {S : Set Char} : ItemSet s S (']' :: rest) → ItemSets s S rest
  | more {s t rest : List Char} {S T : Set Char} :
      ItemSet s S t → t.head? ≠ some ']' → ItemSets t T rest → ItemSets s (S ∪ T) rest

/-- The set that a class stands for, from its text after the opening bracket. -/
inductive Class (active : Set Char) : List Char → Set Char → List Char → Prop where
  | plain {s rest : List Char} {S : Set Char} :
      s.head? ≠ some '^' → ItemSets s S rest → Class active s S rest
  | negated {s rest : List Char} {S : Set Char} :
      ItemSets s S rest → Class active ('^' :: s) (active \ S) rest

end Grammar

namespace Regex

variable {r : Regex}

/-- In every environment the expression is compiled to the automaton, without any
questions. -/
def CompilesTo (r : Regex) (d : Dfa) : Prop := ∀ env, (r.compile env).outcome = (.ok d, [])

/-- The expression is compiled to an automaton that accepts the words of one character of a
set. -/
def Picks (r : Regex) (S : Set Char) : Prop :=
  ∃ d : Dfa, r.CompilesTo d ∧ ∀ w, d.accepts w = true ↔ ∃ c ∈ S, w = [c]

/-- The expression stands for a set of characters, in its words and in the characters that it
mentions. -/
structure StandsFor (r : Regex) (S : Set Char) : Prop where
  picks : r.Picks S
  usedAlphabet : ∀ c, c ∈ r.usedAlphabet ↔ c ∈ S

@[simp] theorem mem_usedAlphabet {c : Char} :
    c ∈ r.usedAlphabet ↔ c ∈ r.pattern.usedChars r.alphabet := by
  rw [usedAlphabet, IntervalSet.toList, List.mem_flatMap, IntervalSet.mem_def]
  simp only [Interval.toList, List.mem_filterMap, List.mem_range]
  constructor
  · rintro ⟨i, hi, k, -, hk⟩
    exact ⟨i, hi, (Interval.nth?_eq_some_iff.1 hk).2⟩
  · rintro ⟨i, hi, hc⟩
    exact ⟨i, hi, Interval.exists_nth?_of_mem hc⟩

end Regex

namespace Pattern

open Grammar

/-- The characters that `.` ranges over: those of the alphabet, or the printable ones of
ASCII if none is set. -/
def activeChars : Option Alphabet → Set Char
  | some a => {c | c ∈ a.chars}
  | none => {c | ' ' ≤ c ∧ c ≤ '~'}

variable {alphabet : Option Alphabet} {named : String → Language Char} {n : Notation}
  {p q r : Pattern} {S T : Set Char} {s rest : List Char} {c : Char}

theorem mem_domain_iff : c ∈ domain alphabet ↔ c ∈ activeChars alphabet := by
  cases alphabet with
  | some a => exact IntervalSet.mem_ofChars
  | none =>
      rw [domain, IntervalSet.mem_insert IntervalSet.canonical_empty]
      exact or_iff_left (IntervalSet.not_mem_empty c)

/-! ## Trees that stand for a set -/

/-- A pattern without references is compiled to the automaton of its words. -/
theorem exists_compilesTo (alphabet : Option Alphabet) (hrefs : p.references = []) :
    ∃ d : Dfa, Regex.CompilesTo ⟨p, alphabet⟩ d ∧
      ∀ w, d.accepts w = true ↔
        w ∈ p.languageOf Decimal.computed alphabet Environment.empty.language := by
  obtain ⟨d, hd⟩ := exists_compile_of_references_eq_nil alphabet .empty hrefs
  obtain ⟨e, hwf, hlanguage, rfl⟩ := compile_spec supplies_empty (congrArg Prod.fst hd)
  refine ⟨e.minimized, fun env => ?_, fun w => ?_⟩
  · have hcongr : p.compile alphabet env = p.compile alphabet .empty := by
      refine compile_congr fun name hname => ?_
      rw [hrefs] at hname
      cases hname
    show (p.compile alphabet env).outcome = _
    rw [hcongr, hd]
  · show w ∈ e.minimized.language ↔ _
    rw [Dfa.language_minimized hwf, hlanguage]

/-- The pattern is a class that mentions the characters of a set. -/
structure Describes (alphabet : Option Alphabet) (p : Pattern) (S : Set Char) : Prop where
  isClass : p.IsClass
  usedChars : ∀ c, c ∈ p.usedChars alphabet ↔ c ∈ S

theorem Describes.standsFor (h : Describes alphabet p S) :
    Regex.StandsFor ⟨p, alphabet⟩ S := by
  obtain ⟨d, hcompiles, haccepts⟩ := exists_compilesTo alphabet h.isClass.references_eq_nil
  refine ⟨⟨d, hcompiles, fun w => ?_⟩, fun c => Regex.mem_usedAlphabet.trans (h.usedChars c)⟩
  rw [haccepts, languageOf_class h.isClass]
  show (∃ c, c ∈ p.usedChars alphabet ∧ w = [c]) ↔ _
  simp only [h.usedChars]

theorem describes_char (c : Char) : Describes alphabet (.char c) {c} := by
  refine ⟨.char c, fun x => ?_⟩
  simp [usedChars]

theorem describes_range (lo hi : Char) :
    Describes alphabet (.range lo hi) {c | lo ≤ c ∧ c ≤ hi} :=
  ⟨.range lo hi, fun _ => IntervalSet.mem_ofBounds⟩

theorem Describes.union (hp : Describes alphabet p S) (hq : Describes alphabet q T) :
    Describes alphabet (union p q) (S ∪ T) := by
  refine ⟨.union hp.isClass hq.isClass, fun c => ?_⟩
  rw [mem_usedChars_union, hp.usedChars, hq.usedChars, Set.mem_union]

theorem Describes.exclude (h : Describes alphabet p S) :
    Describes alphabet (exclude p) (activeChars alphabet \ S) := by
  refine ⟨.exclude h.isClass, fun c => ?_⟩
  rw [Pattern.exclude, mem_usedChars_inter, mem_usedChars_complement, h.usedChars, mem_domain_iff]
  show c ∈ domain alphabet ∧ _ ↔ _
  rw [mem_domain_iff, Set.mem_sdiff]
  exact ⟨fun h => h.2, fun h => ⟨h.1, h⟩⟩

/-! ## Items and classes -/

theorem exists_itemSet (alphabet : Option Alphabet) (h : Item s p rest) :
    ∃ S, ItemSet s S rest ∧ Describes alphabet p S := by
  cases h with
  | single hmember hhead => exact ⟨_, .single hmember hhead, describes_char _⟩
  | dash hmember => exact ⟨_, .dash hmember, (describes_char _).union (describes_char _)⟩
  | range hlo hclose hhi => exact ⟨_, .range hlo hclose hhi, describes_range _ _⟩

theorem exists_item (alphabet : Option Alphabet) (h : ItemSet s S rest) :
    ∃ p, Item s p rest ∧ Describes alphabet p S := by
  cases h with
  | single hmember hhead => exact ⟨_, .single hmember hhead, describes_char _⟩
  | dash hmember => exact ⟨_, .dash hmember, (describes_char _).union (describes_char _)⟩
  | range hlo hclose hhi => exact ⟨_, .range hlo hclose hhi, describes_range _ _⟩

/-- The items after the first ones: there are none, or they add their characters. -/
theorem itemSets_of_items (h : Items s p q rest) (hp : Describes alphabet p S) :
    (s = ']' :: rest ∧ q = p) ∨
      ∃ T, s.head? ≠ some ']' ∧ ItemSets s T rest ∧ Describes alphabet q (S ∪ T) := by
  induction h generalizing S with
  | done p rest => exact Or.inl ⟨rfl, rfl⟩
  | more hclose hitem _ ih =>
      right
      obtain ⟨T, hset, hq⟩ := exists_itemSet alphabet hitem
      rcases ih (hp.union hq) with ⟨rfl, rfl⟩ | ⟨U, hopen, hsets, hr⟩
      · exact ⟨T, hclose, .last hset, hp.union hq⟩
      · rw [Set.union_assoc] at hr
        exact ⟨T ∪ U, hclose, .more hset hopen hsets, hr⟩

theorem items_of_itemSets (h : ItemSets s T rest) (hopen : s.head? ≠ some ']')
    (hp : Describes alphabet p S) :
    ∃ q, Items s p q rest ∧ Describes alphabet q (S ∪ T) := by
  induction h generalizing p S with
  | last hset =>
      obtain ⟨q, hitem, hq⟩ := exists_item alphabet hset
      exact ⟨_, .more hopen hitem (.done _ _), hp.union hq⟩
  | more hset hclose _ ih =>
      obtain ⟨q, hitem, hq⟩ := exists_item alphabet hset
      obtain ⟨r, hitems, hr⟩ := ih hclose (hp.union hq)
      rw [Set.union_assoc] at hr
      exact ⟨r, .more hopen hitem hitems, hr⟩

theorem exists_itemSets (alphabet : Option Alphabet) (h : ClassBody s p rest) :
    ∃ S, ItemSets s S rest ∧ Describes alphabet p S := by
  cases h with
  | intro hitem hitems =>
      obtain ⟨S, hset, hp⟩ := exists_itemSet alphabet hitem
      rcases itemSets_of_items hitems hp with ⟨rfl, rfl⟩ | ⟨T, hopen, hsets, hq⟩
      · exact ⟨S, .last hset, hp⟩
      · exact ⟨S ∪ T, .more hset hopen hsets, hq⟩

theorem exists_classBody (alphabet : Option Alphabet) (h : ItemSets s S rest) :
    ∃ p, ClassBody s p rest ∧ Describes alphabet p S := by
  cases h with
  | last hset =>
      obtain ⟨p, hitem, hp⟩ := exists_item alphabet hset
      exact ⟨p, .intro hitem (.done p _), hp⟩
  | more hset hopen hsets =>
      obtain ⟨p, hitem, hp⟩ := exists_item alphabet hset
      obtain ⟨q, hitems, hq⟩ := items_of_itemSets hsets hopen hp
      exact ⟨q, .intro hitem hitems, hq⟩

/-- What the parser reads as a class describes the set of the class. -/
theorem exists_class (alphabet : Option Alphabet) {c : Cursor}
    (h : (Parser.bracketed c).Gives p rest) :
    ∃ S, Class (activeChars alphabet) c.chars S rest ∧ Describes alphabet p S := by
  rcases Parser.bracketed_gives_iff.1 h with ⟨hhead, hbody⟩ | ⟨s, q, hchars, hbody, rfl⟩
  · obtain ⟨S, hsets, hp⟩ := exists_itemSets alphabet hbody
    exact ⟨S, .plain hhead hsets, hp⟩
  · obtain ⟨S, hsets, hq⟩ := exists_itemSets alphabet hbody
    rw [hchars]
    exact ⟨_, .negated hsets, hq.exclude⟩

/-- Every class is read. -/
theorem exists_simple_of_class (h : Class (activeChars n.alphabet) s S rest) :
    ∃ p, Simple n ('[' :: s) p rest ∧ Describes n.alphabet p S := by
  cases h with
  | plain hhead hsets =>
      obtain ⟨p, hbody, hp⟩ := exists_classBody n.alphabet hsets
      exact ⟨p, .bracket hhead hbody, hp⟩
  | negated hsets =>
      obtain ⟨p, hbody, hp⟩ := exists_classBody n.alphabet hsets
      exact ⟨_, .negatedBracket hbody, hp.exclude⟩

/-! ## The tree for some characters -/

/-- The tree without words mentions the white space of the alphabet, and so it does not
stand for the empty set in both ways. -/
theorem picks_empty : Regex.Picks ⟨.empty, alphabet⟩ ∅ := by
  obtain ⟨d, hcompiles, haccepts⟩ := exists_compilesTo (p := .empty) alphabet rfl
  refine ⟨d, hcompiles, fun w => ?_⟩
  rw [haccepts, languageOf]
  exact iff_of_false (Language.notMem_zero w) (by simp)

theorem describes_anyChar : Describes alphabet .anyChar (activeChars alphabet) :=
  ⟨.anyChar, fun _ => mem_domain_iff⟩

theorem describes_ofInterval (i : Interval) : Describes alphabet (ofInterval i) {c | c ∈ i} := by
  unfold ofInterval
  split
  · next heq =>
    have hset : {c | c ∈ i} = {i.lo} := by
      ext c
      show i.lo ≤ c ∧ c ≤ i.hi ↔ c = i.lo
      rw [← heq]
      exact ⟨fun h => Char.le_antisymm h.2 h.1, fun h => h ▸ ⟨Char.le_refl _, Char.le_refl _⟩⟩
    rw [hset]
    exact describes_char i.lo
  · exact describes_range i.lo i.hi

/-- The characters of some intervals. -/
def charsOf (is : List Interval) : Set Char := {c | ∃ i ∈ is, c ∈ i}

@[simp] theorem charsOf_nil : charsOf [] = ∅ := by simp [charsOf]

@[simp] theorem charsOf_cons (i : Interval) (is : List Interval) :
    charsOf (i :: is) = {c | c ∈ i} ∪ charsOf is := by
  ext c
  simp [charsOf]

theorem Describes.foldl_ofInterval (h : Describes alphabet p S) (is : List Interval) :
    Describes alphabet ((is.map ofInterval).foldl .union p) (S ∪ charsOf is) := by
  induction is generalizing p S with
  | nil =>
      rw [charsOf_nil, Set.union_empty]
      exact h
  | cons i is ih =>
      rw [List.map_cons, List.foldl_cons, charsOf_cons, ← Set.union_assoc]
      exact ih (h.union (describes_ofInterval i))

theorem picks_unionAll (is : List Interval) :
    Regex.Picks ⟨unionAll (is.map ofInterval), alphabet⟩ (charsOf is) := by
  cases is with
  | nil =>
      rw [charsOf_nil]
      exact picks_empty
  | cons i is =>
      rw [charsOf_cons]
      exact ((describes_ofInterval i).foldl_ofInterval is).standsFor.picks

/-- No character lies in the surrogate block, so the parts on either side have all of them. -/
@[simp] theorem exists_mem_splitAtSurrogates {i : Interval} :
    (∃ j ∈ splitAtSurrogates i, c ∈ j) ↔ c ∈ i := by
  have hnext : firstAboveSurrogates.ordinal.val = lastBelowSurrogates.ordinal.val + 1 := by
    decide
  have hside : c < firstAboveSurrogates ∨ lastBelowSurrogates < c := by
    rw [Scalar.lt_iff, Scalar.lt_iff]
    omega
  have hcut := and_or_left.symm.trans (and_iff_left (a := c ∈ i) hside)
  rw [← hcut, ← Interval.mem_below?, ← Interval.mem_above?]
  simp only [splitAtSurrogates, List.mem_append, Option.mem_toList, or_and_right, exists_or]
  rfl

theorem picks_ofChars (alphabet : Option Alphabet) (cs : List Char) :
    Regex.Picks ⟨ofChars cs, alphabet⟩ {c | c ∈ cs} := by
  have hset : {c | c ∈ cs} =
      charsOf ((IntervalSet.ofChars cs).intervals.flatMap splitAtSurrogates) := by
    ext c
    show c ∈ cs ↔ ∃ i ∈ _, c ∈ i
    rw [← IntervalSet.mem_ofChars, IntervalSet.mem_def]
    constructor
    · rintro ⟨i, hi, hc⟩
      obtain ⟨j, hj, hc⟩ := exists_mem_splitAtSurrogates.2 hc
      exact ⟨j, List.mem_flatMap.2 ⟨i, hi, hj⟩, hc⟩
    · rintro ⟨j, hj, hc⟩
      obtain ⟨i, hi, hj⟩ := List.mem_flatMap.1 hj
      exact ⟨i, hi, exists_mem_splitAtSurrogates.1 ⟨j, hj, hc⟩⟩
  rw [hset]
  exact picks_unionAll _

/-! ## Class escapes -/

/-- The two letters of each class escape, and the test for its characters. -/
def escapeTests : List (Char × Char × (Char → Bool)) :=
  [('d', 'D', CharClass.isDigit), ('s', 'S', CharClass.isSpace), ('w', 'W', CharClass.isWord)]

/-- The lower-case letter picks what passes the test from an alphabet, the upper-case one
the rest. -/
theorem classEscape_of_mem {a : Alphabet} {lower upper : Char} {test : Char → Bool}
    (h : (lower, upper, test) ∈ escapeTests) :
    lower ∈ Parser.classLetters ∧ upper ∈ Parser.classLetters ∧
      Parser.classEscape (some a) lower = ofChars (a.filter test) ∧
      Parser.classEscape (some a) upper = ofChars (a.filter fun c => !test c) := by
  simp only [escapeTests, List.mem_cons, List.not_mem_nil, or_false, Prod.mk.injEq] at h
  rcases h with ⟨rfl, rfl, rfl⟩ | ⟨rfl, rfl, rfl⟩ | ⟨rfl, rfl, rfl⟩
  all_goals
    refine ⟨by decide, by decide, ?_, ?_⟩ <;>
      simp [Parser.classEscape, Parser.escapeClass]

/-! ## Reading classes and class escapes -/

theorem ofText_of_simple {x : Char} (h : Simple n (x :: s) p []) (hx : x ≠ '~') :
    Regex.ofText n (x :: s) = .ok ⟨p, n.alphabet⟩ := by
  rw [Regex.ofText, parse_of_quantified (quantified_of_simple h hx unquantified_nil)]
  rfl

theorem exists_ofText_of_class (h : Class (activeChars n.alphabet) s S []) :
    ∃ r, Regex.ofText n ('[' :: s) = .ok r ∧ r.StandsFor S := by
  obtain ⟨p, hsimple, hp⟩ := exists_simple_of_class h
  exact ⟨_, ofText_of_simple hsimple (by decide), hp.standsFor⟩

/-- The automata of the two letters of an escape share the words of `.` between them. -/
theorem exists_ofText_of_escape {a : Alphabet} {lower upper : Char} {test : Char → Bool}
    (ha : n.alphabet = some a) (h : (lower, upper, test) ∈ escapeTests) :
    ∃ p q dot : Regex, Regex.ofText n ['\\', lower] = .ok p ∧
      Regex.ofText n ['\\', upper] = .ok q ∧ Regex.ofText n ['.'] = .ok dot ∧
      p.Picks {c | c ∈ a.chars ∧ test c = true} ∧
      q.Picks {c | c ∈ a.chars ∧ test c = false} ∧ dot.Picks {c | c ∈ a.chars} := by
  obtain ⟨hlower, hupper, hp, hq⟩ := classEscape_of_mem (a := a) h
  refine ⟨_, _, _, ofText_of_simple (.classEscape [] hlower) (by decide),
    ofText_of_simple (.classEscape [] hupper) (by decide),
    ofText_of_simple (.anyChar []) (by decide), ?_, ?_, ?_⟩
  · rw [ha, hp]
    have hset : {c | c ∈ a.chars ∧ test c = true} = {c | c ∈ a.filter test} := by
      ext c
      exact List.mem_filter.symm
    rw [hset]
    exact picks_ofChars _ _
  · rw [ha, hq]
    have hset : {c | c ∈ a.chars ∧ test c = false} = {c | c ∈ a.filter fun c => !test c} := by
      ext c
      simp [Alphabet.filter]
    rw [hset]
    exact picks_ofChars _ _
  · rw [ha]
    exact describes_anyChar.standsFor.picks

/-- A class stands for the set that its items tell, or for the rest of the active alphabet,
and what the parser accepts as a class is one. The class escapes divide an alphabet that is
set: each character belongs to one letter, and `.` has both parts. -/
theorem ofText_classes (n : Notation) :
    (∀ s S, Class (activeChars n.alphabet) s S [] →
      ∃ r, Regex.ofText n ('[' :: s) = .ok r ∧ r.StandsFor S) ∧
    (∀ (c : Cursor) (parsed : Parsed Pattern c), Parser.bracketed c = .ok parsed →
      ∃ S, Class (activeChars n.alphabet) c.chars S parsed.rest.chars ∧
        Regex.StandsFor ⟨parsed.value, n.alphabet⟩ S) ∧
    (∀ a, n.alphabet = some a → ∀ lower upper test, (lower, upper, test) ∈ escapeTests →
      ∃ p q dot d e f, Regex.ofText n ['\\', lower] = .ok p ∧ p.CompilesTo d ∧
        Regex.ofText n ['\\', upper] = .ok q ∧ q.CompilesTo e ∧
        Regex.ofText n ['.'] = .ok dot ∧ dot.CompilesTo f ∧
        (∀ w, d.accepts w = true ↔ ∃ c ∈ a.chars, test c = true ∧ w = [c]) ∧
        (∀ w, e.accepts w = true ↔ ∃ c ∈ a.chars, test c = false ∧ w = [c]) ∧
        (∀ w, ¬ (d.accepts w = true ∧ e.accepts w = true)) ∧
        ∀ w, f.accepts w = true ↔ d.accepts w = true ∨ e.accepts w = true) := by
  refine ⟨fun s S => exists_ofText_of_class, fun c parsed h => ?_, ?_⟩
  · obtain ⟨S, hclass, hp⟩ := exists_class n.alphabet ⟨parsed, h, rfl, rfl⟩
    exact ⟨S, hclass, hp.standsFor⟩
  intro a ha lower upper test h
  obtain ⟨p, q, dot, hp, hq, hdot, ⟨d, hd, hlower⟩, ⟨e, he, hupper⟩, f, hf, hany⟩ :=
    exists_ofText_of_escape ha h
  refine ⟨p, q, dot, d, e, f, hp, hd, hq, he, hdot, hf, fun w => ?_, fun w => ?_,
    fun w hboth => ?_, fun w => ?_⟩
  · rw [hlower]
    simp only [Set.mem_ofPred_eq, and_assoc]
  · rw [hupper]
    simp only [Set.mem_ofPred_eq, and_assoc]
  · rw [hlower, hupper] at hboth
    obtain ⟨⟨c, hc, rfl⟩, x, hx, heq⟩ := hboth
    cases heq
    exact absurd (hc.2.symm.trans hx.2) (by decide)
  · rw [hany, hlower, hupper]
    constructor
    · rintro ⟨c, hc, rfl⟩
      cases htest : test c with
      | true => exact Or.inl ⟨c, ⟨hc, htest⟩, rfl⟩
      | false => exact Or.inr ⟨c, ⟨hc, htest⟩, rfl⟩
    · rintro (⟨c, hc, rfl⟩ | ⟨c, hc, rfl⟩) <;> exact ⟨c, hc.1, rfl⟩

/-- A notation with an alphabet that has characters on both sides of the surrogate block, in
no order and with a repetition. -/
def gapNotation : Notation := ⟨.all, some ⟨['\uE000', 'b', '5', 'b', '\uD7FF', '-']⟩⟩

/-- An excluding class: a range with its bounds in the wrong order, one across the surrogate
block, and a dash at the end. -/
def gapClass : List Char := "^z-a\uD000-\uE000-]".toList

/-- The set of the class. -/
def gapSet : Set Char :=
  activeChars gapNotation.alphabet \
    ({c | 'z' ≤ c ∧ c ≤ 'a'} ∪ ({c | '\uD000' ≤ c ∧ c ≤ '\uE000'} ∪ {'-'}))

theorem class_gapClass : Class (activeChars gapNotation.alphabet) gapClass gapSet [] := by
  refine .negated (.more (.range (.bare _ ?_) ?_ (.bare _ ?_)) ?_
    (.more (.range (.bare _ ?_) ?_ (.bare _ ?_)) ?_ (.last (.single (.bare _ ?_) ?_))))
  all_goals decide

theorem ofText_classes_gap :
    (∃ r d, Regex.ofText gapNotation ('[' :: gapClass) = .ok r ∧ r.CompilesTo d ∧
      d.accepts ['b'] = true ∧ d.accepts ['\uD7FF'] = false ∧ '5' ∈ r.usedAlphabet) ∧
    (∃ (parsed : Parsed Pattern ⟨gapClass, 1⟩) (S : Set Char),
      Parser.bracketed ⟨gapClass, 1⟩ = .ok parsed ∧
      Class (activeChars gapNotation.alphabet) gapClass S parsed.rest.chars ∧
      Regex.StandsFor ⟨parsed.value, gapNotation.alphabet⟩ S) ∧
    ∃ q e, Regex.ofText gapNotation ['\\', 'D'] = .ok q ∧ q.CompilesTo e ∧
      e.accepts ['\uD7FF'] = true ∧ e.accepts ['5'] = false := by
  obtain ⟨hclasses, hparsed, hescapes⟩ := ofText_classes gapNotation
  have hin : ∀ c, c ∈ gapSet ↔ c ∈ ['\uE000', 'b', '5', 'b', '\uD7FF', '-'] ∧
      ¬ (('z' ≤ c ∧ c ≤ 'a') ∨ ('\uD000' ≤ c ∧ c ≤ '\uE000') ∨ c = '-') := fun _ => Iff.rfl
  refine ⟨?_, ?_, ?_⟩
  · obtain ⟨r, hr, ⟨d, hd, haccepts⟩, hused⟩ := hclasses gapClass gapSet class_gapClass
    refine ⟨r, d, hr, hd, (haccepts _).2 ⟨'b', (hin _).2 (by decide), rfl⟩, ?_,
      (hused _).2 ((hin _).2 (by decide))⟩
    refine Bool.eq_false_iff.2 fun h => ?_
    obtain ⟨c, hc, heq⟩ := (haccepts _).1 h
    cases heq
    exact absurd ((hin _).1 hc) (by decide)
  · have hok : (Parser.bracketed ⟨gapClass, 1⟩).isOk = true := by decide +kernel
    cases h : Parser.bracketed ⟨gapClass, 1⟩ with
    | error e => rw [h] at hok; cases hok
    | ok parsed =>
        obtain ⟨S, hclass, hS⟩ := hparsed _ parsed h
        exact ⟨parsed, S, rfl, hclass, hS⟩
  · obtain ⟨p, q, dot, d, e, f, -, -, hq, he, -, -, -, hupper, -⟩ :=
      hescapes _ rfl 'd' 'D' CharClass.isDigit (List.mem_cons_self ..)
    refine ⟨q, e, hq, he, (hupper _).2 ⟨'\uD7FF', by decide, by decide, rfl⟩, ?_⟩
    refine Bool.eq_false_iff.2 fun h => ?_
    obtain ⟨c, -, hc, heq⟩ := (hupper _).1 h
    cases heq
    exact absurd hc (by decide)

end Pattern

end PatternAutomata
