import PatternAutomata.Dfa.Complement
import PatternAutomata.Dfa.Composition
import PatternAutomata.Dfa.Numerals
import PatternAutomata.Dfa.Product
import PatternAutomata.Pattern.Basic

/-!
# From patterns to automata

A pattern is compiled from its leaves up, each composed form by the operation on
automata that it stands for, and minimized at every step. A chain of unions, or of
concatenations, is compiled as one operation on all its parts: `Piece` is what has
been compiled of such a chain before its end is known.

References are looked up from left to right, first in a table and then by asking a
provider, up to the first that cannot be resolved. `Resolving` keeps a record of
the names that the provider was asked for.
-/

namespace PatternAutomata

/-- A name that no automaton was found for, with what the provider reported if it
failed. -/
structure UnresolvedReference where
  name : String
  report : Option String
deriving DecidableEq, Repr

/-- The text for a name that was not found. -/
def UnresolvedReference.message (e : UnresolvedReference) : String :=
  "'" ++ e.name ++ "' not found"

/-- Where the automata for names come from. -/
structure Environment where
  /-- The automata that are at hand. -/
  table : String → Option Dfa
  /-- What answers for the other names: an automaton, nothing, or a failure. -/
  provider : Option (String → Except String (Option Dfa))

/-- The environment without automata. -/
def Environment.empty : Environment := ⟨fun _ => none, none⟩

/-- A computation that may fail at a name and records the names that the provider
is asked for. -/
abbrev Resolving (α : Type) := ExceptT UnresolvedReference (StateM (List String)) α

namespace Resolving

/-- The result and the names that the provider was asked for, in order. -/
def outcome {α : Type} (x : Resolving α) : Except UnresolvedReference α × List String :=
  x.run.run []

end Resolving

namespace Environment

/-- The automaton for a name. -/
def resolve (env : Environment) (name : String) : Resolving Dfa :=
  match env.table name with
  | some d => pure d
  | none =>
    match env.provider with
    | none => throw ⟨name, none⟩
    | some ask => do
      modify (· ++ [name])
      match ask name with
      | .ok (some d) => pure d
      | .ok none => throw ⟨name, none⟩
      | .error report => throw ⟨name, some report⟩

end Environment

namespace Pattern

/-- A compiled pattern that may become part of a longer chain. -/
inductive Piece where
  | alternatives (parts : List Dfa)
  | sequence (parts : List Dfa)
  | single (automaton : Dfa)

namespace Piece

/-- The automaton of a piece that is not part of a longer chain. -/
def close : Piece → Dfa
  | alternatives parts => (Dfa.union parts).minimized
  | sequence parts => (Dfa.concat parts).minimized
  | single d => d

/-- The parts that a piece brings into a union. -/
def toAlternatives : Piece → List Dfa
  | alternatives parts => parts
  | p => [p.close]

/-- The parts that a piece brings into a concatenation. -/
def toSequence : Piece → List Dfa
  | sequence parts => parts
  | p => [p.close]

/-- Applies an operation to the automaton of a piece and minimizes the result. -/
def apply (f : Dfa → Dfa) (p : Piece) : Piece := single (f p.close).minimized

end Piece

/-- The automaton of `.`. -/
def anyCharDfa (alphabet : Option Alphabet) : Dfa :=
  match alphabet with
  | some a => Dfa.ofChars a.chars
  | none => Dfa.ofRange Alphabet.printableRange.lo Alphabet.printableRange.hi

/-- Compiles a pattern as part of a chain that may go on. After each operation the
automaton is minimized. A minimal copy is taken, where one could also minimize the
automaton in place if the caller allows it; that is to put the minimal copy in its place, so
the choice does not show in the automaton that comes out, and there is no option for it. -/
def compilePiece (alphabet : Option Alphabet) (env : Environment) : Pattern → Resolving Piece
  | union a b => do
    let first ← compilePiece alphabet env a
    let second ← compilePiece alphabet env b
    return .alternatives (first.toAlternatives ++ second.toAlternatives)
  | concat a b => do
    let first ← compilePiece alphabet env a
    let second ← compilePiece alphabet env b
    return .sequence (first.toSequence ++ second.toSequence)
  | inter a b => do
    let first ← compilePiece alphabet env a
    let second ← compilePiece alphabet env b
    return .single (first.close.inter second.close).minimized
  | optional a => return (← compilePiece alphabet env a).apply Dfa.optional
  | star a => return (← compilePiece alphabet env a).apply Dfa.star
  | atLeast min a => return (← compilePiece alphabet env a).apply (·.atLeast min)
  | between min max a => return (← compilePiece alphabet env a).apply (·.between min max)
  | complement a => return (← compilePiece alphabet env a).apply Dfa.complement
  | char c => return .single (Dfa.ofChar c)
  | range lo hi => return .single (Dfa.ofRange lo hi)
  | anyChar => return .single (anyCharDfa alphabet)
  | anyWord => return .single Dfa.anyWord
  | empty => return .single Dfa.empty
  | literal text => return .single (Dfa.ofWord text)
  | reference name => return .single (← env.resolve name)
  | numerals lo hi width => return .single (Dfa.numerals lo hi width)

/-- The minimal automaton of a pattern, for an alphabet and an environment. -/
def compile (alphabet : Option Alphabet) (env : Environment) (p : Pattern) : Resolving Dfa :=
  return (← compilePiece alphabet env p).close.minimized

end Pattern

end PatternAutomata
