/-!
# Random numbers below a bound

Numbers are drawn from words of 64 bits. A word is taken as a fraction of `2 ^ 64`
and scaled to the bound; to make all numbers equally likely, words whose fractional
part is too great are passed over. At least every other word will do.
-/

/-! ## A permuted congruential generator of random words

The state is an odd 128-bit number that is multiplied by a constant in each step. A
word of 64 bits is the exclusive or of the two halves of the state, rotated by its
six highest bits.

The state for a seed is filled with four words of 32 bits from a congruential
generator on 64 bits, permuted in a similar way. -/

namespace PatternAutomata.Random

/-- The state of a generator. -/
structure Pcg where
  state : BitVec 128
deriving DecidableEq

namespace Pcg

/-- The multiplier of the state. -/
def multiplier : BitVec 128 := 0x2360ED051FC65DA44385DF649FCCF645#128

/-- One step of the generator that seeds are expanded with. -/
def expandStep (s : BitVec 64) : BitVec 64 :=
  s * 6364136223846793005#64 + 11634580027462260723#64

/-- The word of 32 bits for a state of that generator. -/
def expandWord (s : BitVec 64) : BitVec 32 :=
  (((s >>> 18 ^^^ s) >>> 27).setWidth 32).rotateRight (s >>> 59).toNat

/-- The generator for a seed. -/
def ofSeed (seed : BitVec 64) : Pcg :=
  let a := expandStep seed
  let b := expandStep a
  let c := expandStep b
  let d := expandStep c
  ⟨(expandWord d ++ expandWord c ++ expandWord b ++ expandWord a).setWidth 128 ||| 1#128⟩

/-- The next word, and the generator after it. -/
def next (g : Pcg) : BitVec 64 × Pcg :=
  let state := g.state * multiplier
  (((state >>> 64 ^^^ state).setWidth 64).rotateRight (state >>> 122).toNat, ⟨state⟩)

end Pcg

/-! ## Sources of words -/

/-- A word of 64 random bits. -/
abbrev Word := BitVec 64

/-- The number of words. -/
def wordCount : Nat := 0x10000000000000000

/-- Where words come from. -/
inductive Origin where
  /-- A list of words. -/
  | script (words : List Word)
  /-- A generator, which never runs dry. -/
  | generator (g : Pcg)
deriving DecidableEq

/-- A source of words that counts the words taken from it. -/
structure Source where
  origin : Origin
  taken : Nat
deriving DecidableEq

namespace Source

/-- The source that hands out the words of a list. -/
def ofWords (words : List Word) : Source := ⟨.script words, 0⟩

/-- The source with the words of the generator for a seed. -/
def ofSeed (seed : Word) : Source := ⟨.generator (.ofSeed seed), 0⟩

/-- The next word, if there is one left. -/
def next? (s : Source) : Option (Word × Source) :=
  match s.origin with
  | .script [] => none
  | .script (w :: words) => some (w, ⟨.script words, s.taken + 1⟩)
  | .generator g => let (w, g) := g.next; some (w, ⟨.generator g, s.taken + 1⟩)

/-- A number of words after which a source is dry or repeats itself. -/
def horizon (s : Source) : Nat :=
  match s.origin with
  | .script words => words.length
  | .generator _ => wordCount * wordCount

/-- The greatest fractional part, in units of `2 ^ -64`, that a word may have: the
bound is scaled up until its highest bit is that of a word. -/
def zone (bound : Nat) : Nat := bound <<< (63 - bound.log2) - 1

/-- Looks for an acceptable word among the next ones, at most as many as given. -/
def drawAmong? (bound : Nat) : Nat → Source → Option (Nat × Source)
  | 0, _ => none
  | tries + 1, s =>
    match s.next? with
    | none => none
    | some (w, s) =>
      let product := w.toNat * bound
      if product % wordCount ≤ zone bound then some (product / wordCount, s)
      else drawAmong? bound tries s

/-- A number below a bound, unless the source has no acceptable word any more. -/
def draw? (bound : Nat) (s : Source) : Option (Nat × Source) := drawAmong? bound s.horizon s

end Source

end PatternAutomata.Random
