import PatternAutomata.Proofs.Walks

/-!
# Every word of a generator can come up

A state has at most one choice more than there are characters. So if all numbers below such
bounds can be drawn one after the other (`Dfa.Attains`), each accepted word comes up.

A word of 64 bits that is scaled to a bound gives each number below the bound, and gives it
already with the least fractional part that the scaling leaves, which is always small enough
not to be passed over. So scripts of words are a source of this kind, and for each accepted
word there is one from which the generator makes it.

## Main results

* `Generator.returns_minimized`: the words that walks give, for any source of draws.
* `Random.Source.attains_draw?`: words of 64 bits are such a source.
* `Generator.generate_iff`: the strings that a generator can return.
-/

namespace PatternAutomata

namespace Random.Source

open Dfa

/-! ## Words for numbers -/

theorem le_zone (bound : Nat) : bound - 1 ≤ zone bound := by
  have hscale : bound ≤ bound * 2 ^ (63 - bound.log2) :=
    Nat.le_mul_of_pos_right bound (Nat.two_pow_pos _)
  rw [zone, Nat.shiftLeft_eq]
  omega

/-- The least word that gives a number is not passed over. -/
theorem exists_word {bound n : Nat} (hn : n < bound) (hbound : bound ≤ wordCount) :
    ∃ w : Word, w.toNat * bound / wordCount = n ∧ w.toNat * bound % wordCount ≤ zone bound := by
  have hzone := le_zone bound
  -- `q` is `n * wordCount / bound`, rounded up
  obtain ⟨q, hq⟩ : ∃ q, q = (n * wordCount + (bound - 1)) / bound := ⟨_, rfl⟩
  have hdivision := Nat.div_add_mod (n * wordCount + (bound - 1)) bound
  have hremainder := Nat.mod_lt (n * wordCount + (bound - 1)) (Nat.zero_lt_of_lt hn)
  rw [← hq, Nat.mul_comm bound q] at hdivision
  have hscaled : n * wordCount ≤ (bound - 1) * wordCount := Nat.mul_le_mul_right _ (by omega)
  have hbelow : (bound - 1) * wordCount + wordCount = wordCount * bound := by
    rw [← Nat.succ_mul, Nat.succ_eq_add_one, Nat.sub_add_cancel (by omega), Nat.mul_comm]
  have hlt : q < wordCount := by
    refine Nat.lt_of_mul_lt_mul_right (a := bound) ?_
    omega
  have hword : (BitVec.ofNat 64 q).toNat = q := by
    rw [BitVec.toNat_ofNat]
    exact Nat.mod_eq_of_lt hlt
  refine ⟨BitVec.ofNat 64 q, ?_, ?_⟩
  · rw [hword]
    unfold wordCount at *
    omega
  · rw [hword]
    unfold wordCount at *
    omega

theorem exists_draw? {bound n : Nat} (hn : n < bound) (hbound : bound ≤ wordCount) :
    ∃ w, ∀ words taken, draw? bound ⟨.script (w :: words), taken⟩ =
      some (n, ⟨.script words, taken + 1⟩) := by
  obtain ⟨w, hquotient, hfraction⟩ := exists_word hn hbound
  refine ⟨w, fun words taken => ?_⟩
  show (if w.toNat * bound % wordCount ≤ zone bound then
    some (w.toNat * bound / wordCount, _) else _) = _
  rw [if_pos hfraction, hquotient]

/-- A script with one word for each choice. -/
theorem exists_script {choices : List (Nat × Nat)}
    (h : ∀ choice ∈ choices, choice.2 < choice.1 ∧ choice.1 ≤ wordCount) :
    ∃ words : List Word, words.length = choices.length ∧
      ∀ taken, ∃ last, Draws draw? choices ⟨.script words, taken⟩ last := by
  induction choices with
  | nil => exact ⟨[], rfl, fun taken => ⟨_, .nil _⟩⟩
  | cons choice choices ih =>
      obtain ⟨hn, hbound⟩ := h choice (List.mem_cons_self ..)
      obtain ⟨w, hw⟩ := exists_draw? hn hbound
      obtain ⟨words, hlength, hdraws⟩ :=
        ih fun other hother => h other (List.mem_cons_of_mem choice hother)
      refine ⟨w :: words, congrArg (· + 1) hlength, fun taken => ?_⟩
      obtain ⟨last, hlast⟩ := hdraws (taken + 1)
      exact ⟨last, .cons (hw words taken) hlast⟩

end Random.Source

/-! ## Choices of a state -/

theorem Dfa.WellFormed.choices_le {d : Dfa} (h : d.WellFormed) (s : Nat) :
    d.choices s ≤ Char.numCodePoints + 1 := by
  have htotal : (d.weights s).total ≤ Char.numCodePoints := Weights.total_le (h.ordered_row s)
  rw [Dfa.choices]
  split <;> omega

/-- All choices of a walk can come up one after the other: numbers below their bounds, none
of which is greater than the number of choices that a state may have. -/
def Dfa.Attains {σ : Type u} (draw? : Nat → σ → Option (Nat × σ)) : Prop :=
  ∀ choices : List (Nat × Nat),
    (∀ choice ∈ choices, choice.2 < choice.1 ∧ choice.1 ≤ Char.numCodePoints + 1) →
    ∃ source last, Draws draw? choices source last

theorem Random.Source.attains_draw? : Dfa.Attains draw? := by
  intro choices h
  have hcount : Char.numCodePoints + 1 ≤ wordCount := by decide
  obtain ⟨words, -, hdraws⟩ := exists_script fun choice hchoice =>
    ⟨(h choice hchoice).1, Nat.le_trans (h choice hchoice).2 hcount⟩
  obtain ⟨last, hlast⟩ := hdraws 0
  exact ⟨ofWords words, last, hlast⟩

/-! ## Strings of a generator -/

namespace Generator

open PatternAutomata.Random Dfa

variable {d : Dfa} {g : Generator} {w : List Char}

/-- The words that walks of the generator give. Whatever the numbers drawn, as long as they
are in range, they are words of the language, and a walk fails only for want of numbers; if
all choices can come up, so do all words of the language. -/
structure Returns (g : Generator) (words : Set (List Char)) : Prop where
  mem {σ : Type} {draw? : Nat → σ → Option (Nat × σ)} : InRange draw? →
    ∀ steps source w rest, g.automaton.walk draw? steps source = .ok (w, rest) → w ∈ words
  fault {σ : Type} {draw? : Nat → σ → Option (Nat × σ)} : InRange draw? →
    ∀ steps source e, g.automaton.walk draw? steps source = .error e → e = .sourceExhausted
  attained {σ : Type} {draw? : Nat → σ → Option (Nat × σ)} : Attains draw? →
    ∀ w ∈ words, ∃ steps source rest, g.automaton.walk draw? steps source = .ok (w, rest)

theorem returns_minimized (h : d.WellFormed) (hsome : ∃ w, d.accepts w = true)
    (hg : g.automaton = d.minimized) : g.Returns {w | d.accepts w = true} := by
  have htrim := trim_minimized h hsome
  constructor
  · intro σ draw? hdraw steps source
    rw [hg]
    exact (walk_minimized_spec h hsome hdraw steps source).2
  · intro σ draw? hdraw steps source
    rw [hg]
    exact (walk_minimized_spec h hsome hdraw steps source).1
  · intro σ draw? hdraw w hw
    rw [Set.mem_ofPred_eq, ← h.accepts_minimized] at hw
    obtain ⟨choices, -, hchoices, hwalk⟩ := htrim.exists_choices htrim.start_lt hw
    obtain ⟨source, last, hdraws⟩ := hdraw choices fun choice hchoice => by
      obtain ⟨hlt, t, ht⟩ := hchoices choice hchoice
      exact ⟨hlt, ht ▸ htrim.choices_le t⟩
    rw [hg]
    exact ⟨_, source, last, hwalk hdraws _ [] (Nat.lt_succ_self _)⟩

theorem exists_generate (h : d.WellFormed) (hg : g.automaton = d.minimized)
    (hw : d.accepts w = true) : ∃ source rest, g.generate source = .ok (w, rest) := by
  have htrim := trim_minimized h ⟨w, hw⟩
  rw [← h.accepts_minimized] at hw
  obtain ⟨choices, hlength, hchoices, hwalk⟩ := htrim.exists_choices htrim.start_lt hw
  have hwords : ∀ choice ∈ choices, choice.2 < choice.1 ∧ choice.1 ≤ wordCount := by
    intro choice hchoice
    obtain ⟨hlt, t, ht⟩ := hchoices choice hchoice
    have hle := htrim.choices_le t
    have hcount : Char.numCodePoints + 1 ≤ wordCount := by decide
    exact ⟨hlt, ht ▸ Nat.le_trans hle hcount⟩
  obtain ⟨words, hscript, hdraws⟩ := Source.exists_script hwords
  obtain ⟨last, hlast⟩ := hdraws 0
  refine ⟨Source.ofWords words, last, ?_⟩
  have hsize := Nat.zero_lt_of_lt htrim.start_lt
  have hsteps : w.length < d.minimized.size * words.length + 1 := by
    have := Nat.le_mul_of_pos_left words.length hsize
    omega
  rw [generate, hg]
  exact hwalk hlast _ [] hsteps

/-- The strings that the generator of an automaton can return are the words of the
automaton, and it fails only when the source has no words left. -/
theorem generate_iff (h : d.WellFormed) (hsome : ∃ w, d.accepts w = true)
    (hg : g.automaton = d.minimized) :
    (∀ w, d.accepts w = true ↔ ∃ source rest, g.generate source = .ok (w, rest)) ∧
    ∀ source fault, g.generate source = .error fault → fault = .sourceExhausted := by
  have hwalk := fun source => walk_minimized_spec h hsome inRange_draw?
    (d.minimized.size * Source.horizon source + 1) source
  rw [← hg] at hwalk
  constructor
  · intro w
    constructor
    · exact exists_generate h hg
    · rintro ⟨source, rest, hok⟩
      exact (hwalk source).2 w rest hok
  · intro source fault hfault
    exact (hwalk source).1 fault hfault

end Generator

end PatternAutomata
