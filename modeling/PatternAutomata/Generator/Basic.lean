import PatternAutomata.Generator.Walk
import PatternAutomata.Random.Source
import PatternAutomata.Regex

/-!
# Random words of a pattern

A `Generator` is a minimal automaton that accepts some word; its words are those of
random walks. In a pattern for a generator, `^` at the beginning and `$` at the end
are left out, and `@` stands for itself.
-/

namespace PatternAutomata

/-- Why there is no generator. -/
inductive GeneratorError where
  | emptyPattern
  | emptyLanguage
  | malformed (e : SyntaxError)
  | unresolved (e : UnresolvedReference)
deriving DecidableEq, Repr

/-- The text for an error. -/
def GeneratorError.message : GeneratorError → String
  | .emptyPattern => "the pattern is empty"
  | .emptyLanguage => "the pattern matches no strings"
  | .malformed e => e.message
  | .unresolved e => e.message

/-- A minimal automaton to walk through, and the characters that the pattern behind
it mentions, if there is one. -/
structure Generator where
  automaton : Dfa
  usedAlphabet : Option (List Char)
deriving DecidableEq

namespace Generator

/-- The generator of the words of an automaton. -/
def ofDfa (d : Dfa) : Except GeneratorError Generator :=
  let least := d.minimized
  if least.isEmpty then .error .emptyLanguage else .ok ⟨least, none⟩

/-- The text without `^` at the beginning and `$` at the end. -/
def stripAnchors (text : List Char) : List Char :=
  let text := if text.head? = some '^' then text.tail else text
  if text.getLast? = some '$' then text.dropLast else text

/-- The extensions in the patterns of generators. -/
def extensions : Extensions := { Extensions.all with anyWord := false }

/-- The generator of the words of a pattern. -/
def ofPattern (alphabet : Option Alphabet) (text : List Char) :
    Except GeneratorError Generator := do
  if text.isEmpty then throw .emptyPattern
  let regex ← (Regex.ofText ⟨extensions, alphabet⟩ (stripAnchors text)).mapError .malformed
  let automaton ← regex.toDfa.mapError .unresolved
  let generator ← ofDfa automaton
  return { generator with usedAlphabet := some regex.usedAlphabet }

/-- A random word, and the source after it. A walk through more states than the
bound has been in the same state with the same source before, and never ends. -/
def generate (g : Generator) (source : Random.Source) :
    Except WalkFault (List Char × Random.Source) :=
  g.automaton.walk Random.Source.draw? (g.automaton.size * source.horizon + 1) source

end Generator

end PatternAutomata
