import PatternAutomata.Proofs.Resolution
import PatternAutomata.Proofs.SetAlgebra

/-!
# What the used characters say about words

The characters that a pattern mentions are read off its structure, and a complement
mentions the characters of the alphabet that its body does not. For a class this is what
its words are made of. In general a complement has words of all characters, those of its
body among them: the words of `[a-z]+&~(ab)` may use `a` and `b`, which the pattern does
not mention.

`Encloses` gives the trees from whose structure one can tell that the words do stay among
the mentioned characters. It goes along with complements through a second form, for the
words that a pattern does not have. Ranges of numerals are an exception in both: they
mention the digits of their bounds only, and may use any.

## Main results

* `languageOf_class`: a class stands for the characters that it mentions.
* `Encloses.over`: the words of such trees, and of their complements.
* `compile_usedChars`: the same for what the automaton of a pattern accepts.
* `compile_usedChars_not_conservative`: it does not hold of all patterns.
-/

namespace PatternAutomata

open scoped Computability

/-! ## Languages over a set of characters -/

section Over

variable {S T : Char → Prop} {L M : Language Char}

/-- The words are made of characters with a property. -/
def Over (S : Char → Prop) (L : Language Char) : Prop := ∀ w ∈ L, ∀ c ∈ w, S c

theorem Over.mono (h : Over S L) (hle : ∀ c, S c → T c) : Over T L :=
  fun w hw c hc => hle c (h w hw c hc)

theorem Over.add (hL : Over S L) (hM : Over S M) : Over S (L + M) := by
  intro w hw
  rcases hw with hw | hw
  · exact hL w hw
  · exact hM w hw

theorem Over.mul (hL : Over S L) (hM : Over S M) : Over S (L * M) := by
  intro w hw c hc
  obtain ⟨u, hu, v, hv, rfl⟩ := Language.mem_mul.1 hw
  rcases List.mem_append.1 hc with hc | hc
  · exact hL u hu c hc
  · exact hM v hv c hc

theorem over_one : Over S 1 := by
  intro w hw c hc
  rw [Language.mem_one] at hw
  rw [hw] at hc
  cases hc

theorem Over.pow (h : Over S L) (n : Nat) : Over S (L ^ n) := by
  induction n with
  | zero => exact over_one
  | succ n ih =>
      rw [pow_succ]
      exact ih.mul h

theorem Over.kstar (h : Over S L) : Over S (L∗) := by
  intro w hw c hc
  obtain ⟨ws, rfl, hws⟩ := Language.mem_kstar.1 hw
  obtain ⟨u, hu, hc⟩ := List.mem_flatten.1 hc
  exact h u (hws u hu) c hc

end Over

namespace Pattern

variable {alphabet : Option Alphabet} {named : String → Language Char}
  {ranges : Nat → Nat → Nat → Language Char} {a b p : Pattern}
  {inside : Bool} {c : Char}

/-! ## The sets that are used -/

theorem canonical_domain (alphabet : Option Alphabet) : (domain alphabet).Canonical := by
  cases alphabet with
  | none => exact IntervalSet.canonical_insert IntervalSet.canonical_empty _
  | some a => exact IntervalSet.canonical_ofIntervals _

theorem canonical_usedChars (alphabet : Option Alphabet) (p : Pattern) :
    (p.usedChars alphabet).Canonical := by
  induction p with
  | union a b iha _ | concat a b iha _ => exact IntervalSet.canonical_union iha
  | inter a b iha _ => exact IntervalSet.canonical_inter iha
  | optional a ih | star a ih | atLeast _ a ih | between _ _ a ih => exact ih
  | complement a ih => exact IntervalSet.canonical_diff (canonical_domain alphabet)
  | anyChar | anyWord => exact canonical_domain alphabet
  | empty =>
      cases alphabet with
      | none => exact IntervalSet.canonical_ofIntervals _
      | some a => exact IntervalSet.canonical_ofIntervals _
  | char | range | literal | reference | numerals => exact IntervalSet.canonical_ofIntervals _

@[simp] theorem mem_usedChars_union :
    c ∈ (union a b).usedChars alphabet ↔ c ∈ a.usedChars alphabet ∨ c ∈ b.usedChars alphabet :=
  IntervalSet.mem_union (canonical_usedChars alphabet a)

@[simp] theorem mem_usedChars_concat :
    c ∈ (concat a b).usedChars alphabet ↔ c ∈ a.usedChars alphabet ∨ c ∈ b.usedChars alphabet :=
  IntervalSet.mem_union (canonical_usedChars alphabet a)

@[simp] theorem mem_usedChars_inter :
    c ∈ (inter a b).usedChars alphabet ↔ c ∈ a.usedChars alphabet ∧ c ∈ b.usedChars alphabet :=
  IntervalSet.mem_inter (canonical_usedChars alphabet a) (canonical_usedChars alphabet b)

@[simp] theorem mem_usedChars_complement :
    c ∈ (complement a).usedChars alphabet ↔ c ∈ domain alphabet ∧ c ∉ a.usedChars alphabet :=
  IntervalSet.mem_diff (canonical_domain alphabet) (canonical_usedChars alphabet a)

/-! ## Classes -/

/-- The pattern is a class: single characters, and what a class leaves of the alphabet. -/
inductive IsClass : Pattern → Prop where
  | char (c : Char) : IsClass (.char c)
  | range (lo hi : Char) : IsClass (.range lo hi)
  | text (c : Char) : IsClass (.literal [c])
  | anyChar : IsClass .anyChar
  | union {a b : Pattern} : IsClass a → IsClass b → IsClass (.union a b)
  | exclude {a : Pattern} : IsClass a → IsClass (exclude a)

/-- A class stands for the characters that it mentions. -/
theorem languageOf_class (h : p.IsClass) :
    p.languageOf ranges alphabet named = (p.usedChars alphabet).language := by
  induction h with
  | char d | text d =>
      ext w
      show w = [d] ↔ ∃ c, c ∈ IntervalSet.ofChars [d] ∧ w = [c]
      simp
  | range lo hi =>
      ext w
      show (∃ c, lo ≤ c ∧ c ≤ hi ∧ w = [c]) ↔ ∃ c, c ∈ IntervalSet.ofBounds lo hi ∧ w = [c]
      simp [and_assoc]
  | anyChar => rfl
  | @union a b _ _ iha ihb =>
      ext w
      rw [languageOf, iha, ihb]
      show (w ∈ (a.usedChars alphabet).language ∨ w ∈ (b.usedChars alphabet).language) ↔
        ∃ c, c ∈ (union a b).usedChars alphabet ∧ w = [c]
      simp [or_and_right, exists_or]
      rfl
  | @exclude a _ ih =>
      ext w
      rw [Pattern.exclude, languageOf, languageOf, languageOf, ih]
      show ((∃ c, c ∈ domain alphabet ∧ w = [c]) ∧ ¬ ∃ c, c ∈ a.usedChars alphabet ∧ w = [c]) ↔
        ∃ c, c ∈ (inter .anyChar (complement a)).usedChars alphabet ∧ w = [c]
      have hany : usedChars alphabet .anyChar = domain alphabet := rfl
      simp only [mem_usedChars_inter, mem_usedChars_complement, hany]
      constructor
      · rintro ⟨⟨c, hc, rfl⟩, hnot⟩
        exact ⟨c, ⟨hc, hc, fun hused => hnot ⟨c, hused, rfl⟩⟩, rfl⟩
      · rintro ⟨c, ⟨hc, -, hnot⟩, rfl⟩
        refine ⟨⟨c, hc, rfl⟩, ?_⟩
        rintro ⟨d, hd, heq⟩
        cases heq
        exact hnot hd

/-! ## Trees that enclose their words -/

/-- Some node of the tree is a range of numerals. -/
def HasNumerals : Pattern → Prop
  | union a b | concat a b | inter a b => HasNumerals a ∨ HasNumerals b
  | optional a | star a | atLeast _ a | between _ _ a | complement a => HasNumerals a
  | numerals _ _ _ => True
  | _ => False

/-- The structure of the tree tells that the words of the pattern (`true`), or those that
are not words of it (`false`), stay among the characters that it mentions, or among the
others of the alphabet.

An intersection needs that of one side only if the other mentions as many characters. A
complement passes from one form to the other, and an excluded class is looked at as a
whole. -/
inductive Encloses (alphabet : Option Alphabet) : Bool → Pattern → Prop where
  | char (c : Char) : Encloses alphabet true (.char c)
  | range (lo hi : Char) : Encloses alphabet true (.range lo hi)
  | anyChar : Encloses alphabet true .anyChar
  | empty : Encloses alphabet true .empty
  | literal (text : List Char) : Encloses alphabet true (.literal text)
  | numerals (lo hi width : Nat) : Encloses alphabet true (.numerals lo hi width)
  | excludedClass {a : Pattern} : a.IsClass → Encloses alphabet true (exclude a)
  | union {inside : Bool} {a b : Pattern} :
      Encloses alphabet inside a → Encloses alphabet inside b →
      Encloses alphabet inside (.union a b)
  | concat {a b : Pattern} :
      Encloses alphabet true a → Encloses alphabet true b → Encloses alphabet true (.concat a b)
  | inter {inside : Bool} {a b : Pattern} :
      Encloses alphabet inside a → Encloses alphabet inside b →
      Encloses alphabet inside (.inter a b)
  | interFirst {a b : Pattern} :
      Encloses alphabet true a → (∀ c ∈ a.usedChars alphabet, c ∈ b.usedChars alphabet) →
      Encloses alphabet true (.inter a b)
  | interSecond {a b : Pattern} :
      Encloses alphabet true b → (∀ c ∈ b.usedChars alphabet, c ∈ a.usedChars alphabet) →
      Encloses alphabet true (.inter a b)
  | optional {inside : Bool} {a : Pattern} :
      Encloses alphabet inside a → Encloses alphabet inside (.optional a)
  | star {inside : Bool} {a : Pattern} :
      Encloses alphabet inside a → Encloses alphabet inside (.star a)
  | atLeast {a : Pattern} (min : Nat) :
      Encloses alphabet true a → Encloses alphabet true (.atLeast min a)
  | between {a : Pattern} (min max : Nat) :
      Encloses alphabet true a → Encloses alphabet true (.between min max a)
  | complement {a : Pattern} :
      Encloses alphabet false a → Encloses alphabet true (.complement a)
  | anyWordRest : Encloses alphabet false .anyWord
  | complementRest {a : Pattern} :
      Encloses alphabet true a → (∀ c ∈ a.usedChars alphabet, c ∈ domain alphabet) →
      Encloses alphabet false (.complement a)

/-- The characters that words may use besides those that a pattern mentions. -/
def NumeralDigit (p : Pattern) (c : Char) : Prop := p.HasNumerals ∧ CharClass.isDigit c = true

/-- The characters that the words of a pattern may use, or those that are not its words. -/
def MayUse (alphabet : Option Alphabet) (inside : Bool) (p : Pattern) (c : Char) : Prop :=
  match inside with
  | true => c ∈ p.usedChars alphabet ∨ p.NumeralDigit c
  | false => (c ∈ domain alphabet ∧ c ∉ p.usedChars alphabet) ∨ p.NumeralDigit c

/-- The words of a pattern that its automaton accepts, or those that it does not accept. -/
def side (alphabet : Option Alphabet) (named : String → Language Char) (inside : Bool)
    (p : Pattern) : Language Char :=
  match inside with
  | true => p.languageOf Decimal.computed alphabet named
  | false => (p.languageOf Decimal.computed alphabet named)ᶜ

theorem not_mem_of_not_mem_kstar {L : Language Char} {w : List Char} (h : w ∉ L∗) : w ∉ L := by
  intro hw
  apply h
  rw [Language.mem_kstar]
  refine ⟨[w], (List.append_nil w).symm, ?_⟩
  intro u hu
  rwa [List.mem_singleton.1 hu]

/-- A union mentions what its parts do, and leaves out what both leave out. -/
theorem over_side_union (ha : Over (a.MayUse alphabet inside) (a.side alphabet named inside))
    (hb : Over (b.MayUse alphabet inside) (b.side alphabet named inside)) :
    Over ((union a b).MayUse alphabet inside) ((union a b).side alphabet named inside) := by
  cases inside with
  | true =>
      refine (ha.mono ?_).add (hb.mono ?_)
      · intro c hc
        exact hc.imp (fun h => mem_usedChars_union.2 (Or.inl h)) (fun h => ⟨Or.inl h.1, h.2⟩)
      · intro c hc
        exact hc.imp (fun h => mem_usedChars_union.2 (Or.inr h)) (fun h => ⟨Or.inr h.1, h.2⟩)
  | false =>
      intro w hw c hc
      have hfirst := ha w (fun h => hw (Or.inl h)) c hc
      have hsecond := hb w (fun h => hw (Or.inr h)) c hc
      rcases hfirst with ⟨hdomain, hnot⟩ | hdigit
      · rcases hsecond with ⟨-, hnot'⟩ | hdigit
        · exact Or.inl ⟨hdomain, fun h => (mem_usedChars_union.1 h).elim hnot hnot'⟩
        · exact Or.inr ⟨Or.inr hdigit.1, hdigit.2⟩
      · exact Or.inr ⟨Or.inl hdigit.1, hdigit.2⟩

/-- An intersection mentions what both parts do. -/
theorem over_side_inter (ha : Over (a.MayUse alphabet inside) (a.side alphabet named inside))
    (hb : Over (b.MayUse alphabet inside) (b.side alphabet named inside)) :
    Over ((inter a b).MayUse alphabet inside) ((inter a b).side alphabet named inside) := by
  cases inside with
  | true =>
      intro w hw c hc
      rcases ha w hw.1 c hc with hfirst | hdigit
      · rcases hb w hw.2 c hc with hsecond | hdigit
        · exact Or.inl (mem_usedChars_inter.2 ⟨hfirst, hsecond⟩)
        · exact Or.inr ⟨Or.inr hdigit.1, hdigit.2⟩
      · exact Or.inr ⟨Or.inl hdigit.1, hdigit.2⟩
  | false =>
      intro w hw c hc
      by_cases hfirst : w ∈ a.languageOf Decimal.computed alphabet named
      · have hsecond : w ∉ b.languageOf Decimal.computed alphabet named :=
          fun h => hw ⟨hfirst, h⟩
        refine (hb w hsecond c hc).imp (fun h => ?_) (fun h => ⟨Or.inr h.1, h.2⟩)
        exact ⟨h.1, fun hused => h.2 (mem_usedChars_inter.1 hused).2⟩
      · refine (ha w hfirst c hc).imp (fun h => ?_) (fun h => ⟨Or.inl h.1, h.2⟩)
        exact ⟨h.1, fun hused => h.2 (mem_usedChars_inter.1 hused).1⟩

/-- Trees that enclose their words do so. -/
theorem Encloses.over (h : Encloses alphabet inside p) (named : String → Language Char) :
    Over (p.MayUse alphabet inside) (p.side alphabet named inside) := by
  induction h with
  | char d =>
      intro w hw c hc
      rw [show w = [d] from hw] at hc
      exact Or.inl (IntervalSet.mem_ofChars.2 hc)
  | range lo hi =>
      intro w hw c hc
      obtain ⟨d, hlo, hhi, rfl⟩ := hw
      rw [List.mem_singleton.1 hc]
      exact Or.inl (IntervalSet.mem_ofBounds.2 ⟨hlo, hhi⟩)
  | anyChar =>
      intro w hw c hc
      obtain ⟨d, hd, rfl⟩ := hw
      rw [List.mem_singleton.1 hc]
      exact Or.inl hd
  | empty =>
      intro w hw
      exact absurd hw (Language.notMem_zero w)
  | literal text =>
      intro w hw c hc
      rw [show w = text from hw] at hc
      exact Or.inl (IntervalSet.mem_ofChars.2 hc)
  | numerals lo hi width =>
      intro w hw c hc
      exact Or.inr ⟨trivial, hw.1.2.1 c hc⟩
  | excludedClass hclass =>
      intro w hw c hc
      rw [side, languageOf_class hclass.exclude] at hw
      obtain ⟨d, hd, rfl⟩ := hw
      rw [List.mem_singleton.1 hc]
      exact Or.inl hd
  | union _ _ iha ihb => exact over_side_union iha ihb
  | concat _ _ iha ihb =>
      refine (iha.mono ?_).mul (ihb.mono ?_)
      · intro c hc
        exact hc.imp (fun h => mem_usedChars_concat.2 (Or.inl h)) (fun h => ⟨Or.inl h.1, h.2⟩)
      · intro c hc
        exact hc.imp (fun h => mem_usedChars_concat.2 (Or.inr h)) (fun h => ⟨Or.inr h.1, h.2⟩)
  | inter _ _ iha ihb => exact over_side_inter iha ihb
  | interFirst _ hsubset iha =>
      intro w hw c hc
      refine (iha w hw.1 c hc).imp (fun h => ?_) (fun h => ⟨Or.inl h.1, h.2⟩)
      exact mem_usedChars_inter.2 ⟨h, hsubset c h⟩
  | interSecond _ hsubset ihb =>
      intro w hw c hc
      refine (ihb w hw.2 c hc).imp (fun h => ?_) (fun h => ⟨Or.inr h.1, h.2⟩)
      exact mem_usedChars_inter.2 ⟨hsubset c h, h⟩
  | @optional inside a _ ih =>
      cases inside with
      | true => exact over_one.add ih
      | false =>
          intro w hw
          exact ih w fun h => hw (Or.inr h)
  | @star inside a _ ih =>
      cases inside with
      | true => exact ih.kstar
      | false =>
          intro w hw
          exact ih w (not_mem_of_not_mem_kstar hw)
  | atLeast min _ ih => exact (ih.pow min).mul ih.kstar
  | between min max _ ih =>
      intro w hw
      obtain ⟨k, -, -, hw⟩ := hw
      exact ih.pow k w hw
  | complement _ ih =>
      intro w hw c hc
      exact (ih w hw c hc).imp_left mem_usedChars_complement.2
  | anyWordRest =>
      intro w hw
      exact absurd trivial hw
  | complementRest _ hsubset ih =>
      intro w hw c hc
      refine (ih w (not_not.1 hw) c hc).imp_left (fun h => ⟨hsubset c h, ?_⟩)
      exact fun hused => (mem_usedChars_complement.1 hused).2 h

/-! ## What the automaton of a pattern accepts -/

theorem supplies_empty : Environment.empty.Supplies Dfa.WellFormed := by
  constructor
  · intro name d hd
    cases hd
  · intro ask hask
    cases hask

/-- A pattern without references is compiled without asking for names. -/
theorem exists_compile_of_references_eq_nil (alphabet : Option Alphabet) (env : Environment)
    (h : p.references = []) : ∃ d, (p.compile alphabet env).outcome = (.ok d, []) := by
  have hlookups : (Resolving.forget (p.compile alphabet env)).outcome = (.ok (), []) := by
    rw [forget_compile, h]
    rfl
  exact Resolving.exists_outcome_of_forget hlookups

/-- A tree without references that encloses its words is compiled to an automaton that
accepts words of characters that the tree mentions, and of digits if it has numerals. -/
theorem compile_usedChars (alphabet : Option Alphabet) (p : Pattern) (hrefs : p.references = [])
    (h : Encloses alphabet true p) :
    ∃ d, (p.compile alphabet .empty).outcome = (.ok d, []) ∧
      ∀ w, d.accepts w = true → ∀ c ∈ w, c ∈ p.usedChars alphabet ∨
        (p.HasNumerals ∧ CharClass.isDigit c = true) := by
  obtain ⟨d, hd⟩ := exists_compile_of_references_eq_nil alphabet .empty hrefs
  refine ⟨d, hd, ?_⟩
  obtain ⟨e, hwf, hlanguage, rfl⟩ := compile_spec supplies_empty (congrArg Prod.fst hd)
  intro w hw
  have hmem : w ∈ e.minimized.language := hw
  rw [Dfa.language_minimized hwf, hlanguage] at hmem
  exact h.over _ w hmem

/-- An excluded class, a complement of a complement next to a complement that excludes
nothing, and numerals. -/
def nested : Pattern :=
  .star (.union (exclude (.range 'a' 'c'))
    (.inter (.complement (.complement (.concat (.char 'd') (.numerals 5 12 0))))
      (.complement (.empty))))

theorem compile_usedChars_nested :
    nested.references = [] ∧ Encloses none true nested ∧
    ∃ d, (nested.compile none .empty).outcome = (.ok d, []) ∧
      ∀ w, d.accepts w = true → ∀ c ∈ w, c ∈ nested.usedChars none ∨
        (nested.HasNumerals ∧ CharClass.isDigit c = true) := by
  have hbody : Encloses none true (.concat (.char 'd') (.numerals 5 12 0)) :=
    .concat (.char 'd') (.numerals 5 12 0)
  have hdomain : ∀ c ∈ usedChars none (.concat (.char 'd') (.numerals 5 12 0)),
      c ∈ domain none :=
    (IntervalSet.isEmpty_diff_iff (canonical_usedChars _ _) (canonical_domain _)).1
      (by decide +kernel)
  have hsubset : ∀ c ∈ usedChars none
      (.complement (.complement (.concat (.char 'd') (.numerals 5 12 0)))),
      c ∈ usedChars none (.complement .empty) :=
    (IntervalSet.isEmpty_diff_iff (canonical_usedChars _ _) (canonical_usedChars _ _)).1
      (by decide +kernel)
  have hencloses : Encloses none true nested :=
    .star (.union (.excludedClass (.range 'a' 'c'))
      (.interFirst (.complement (.complementRest hbody hdomain)) hsubset))
  exact ⟨rfl, hencloses, compile_usedChars none nested rfl hencloses⟩

/-- The words of small letters other than `ab`. -/
def allButOne : Pattern :=
  .inter (.atLeast 1 (.range 'a' 'z')) (.complement (.literal ['a', 'b']))

/-- One of its words has a letter that the pattern does not mention. -/
theorem compile_usedChars_not_conservative :
    ¬ ∀ (alphabet : Option Alphabet) (p : Pattern) (d : Dfa), p.references = [] →
      (p.compile alphabet .empty).outcome = (.ok d, []) →
      ∀ w, d.accepts w = true → ∀ c ∈ w, c ∈ p.usedChars alphabet := by
  intro h
  obtain ⟨d, hd⟩ := exists_compile_of_references_eq_nil none .empty (p := allButOne) rfl
  obtain ⟨e, hwf, hlanguage, rfl⟩ := compile_spec supplies_empty (congrArg Prod.fst hd)
  have hletters : ['a', 'c'] ∈ languageOf Decimal.computed none Environment.empty.language
      (.atLeast 1 (.range 'a' 'z')) := by
    rw [languageOf, pow_one, Language.mem_mul]
    refine ⟨['a'], ⟨'a', by decide, by decide, rfl⟩, ['c'], ?_, rfl⟩
    rw [Language.mem_kstar]
    refine ⟨[['c']], rfl, ?_⟩
    intro u hu
    rw [List.mem_singleton.1 hu]
    exact ⟨'c', by decide, by decide, rfl⟩
  have hother : ['a', 'c'] ∉ ({['a', 'b']} : Language Char) := by
    intro heq
    exact absurd (show ['a', 'c'] = ['a', 'b'] from heq) (by decide)
  have hword : e.minimized.accepts ['a', 'c'] = true := by
    show ['a', 'c'] ∈ e.minimized.language
    rw [Dfa.language_minimized hwf, hlanguage]
    exact ⟨hletters, hother⟩
  have hmentioned := h none allButOne _ rfl hd ['a', 'c'] hword 'a' (by decide)
  have hrest := (mem_usedChars_inter.1 hmentioned).2
  apply (mem_usedChars_complement.1 hrest).2
  exact IntervalSet.mem_ofChars.2 (by decide)

end Pattern

end PatternAutomata
