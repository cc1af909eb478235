import PatternAutomata.Checked.Composition
import PatternAutomata.Pattern.Compilation

/-!
# Compilation by single calls

A name that is not found ends the compilation with a report; a call that goes wrong
ends it with a fault. The bounds of a range of numerals are taken as words of 32 bits.
-/

namespace PatternAutomata.Checked

/-- A computation that looks up names and makes calls that can go wrong. -/
abbrev Compiling (α : Type) := ExceptT Fault Resolving α

/-- The automaton of a piece that is not part of a longer chain. -/
def close : Pattern.Piece → Checked Dfa
  | .alternatives parts => do minimized (← union parts)
  | .sequence parts => do minimized (← concat parts)
  | .single d => pure d

/-- The parts that a piece brings into a union. -/
def toAlternatives : Pattern.Piece → Checked (List Dfa)
  | .alternatives parts => pure parts
  | p => return [← close p]

/-- The parts that a piece brings into a concatenation. -/
def toSequence : Pattern.Piece → Checked (List Dfa)
  | .sequence parts => pure parts
  | p => return [← close p]

/-- Applies an operation to the automaton of a piece and minimizes the result. -/
def apply (f : Dfa → Checked Dfa) (p : Pattern.Piece) : Checked Pattern.Piece := do
  return .single (← minimized (← f (← close p)))

/-- Applies an operation to the automata of two pieces and minimizes the result. -/
def apply₂ (f : Dfa → Dfa → Checked Dfa) (p q : Pattern.Piece) : Checked Pattern.Piece := do
  return .single (← minimized (← f (← close p) (← close q)))

/-- Two pieces as one chain of alternatives. -/
def joinAlternatives (p q : Pattern.Piece) : Checked Pattern.Piece :=
  return .alternatives ((← toAlternatives p) ++ (← toAlternatives q))

/-- Two pieces as one sequence. -/
def joinSequence (p q : Pattern.Piece) : Checked Pattern.Piece :=
  return .sequence ((← toSequence p) ++ (← toSequence q))

/-- The automaton of `.`. -/
def anyCharDfa (alphabet : Option Alphabet) : Checked Dfa :=
  match alphabet with
  | some a => ofChars a.chars
  | none => ofRange Alphabet.printableRange.lo Alphabet.printableRange.hi

/-- Compiles a pattern as part of a chain that may go on. -/
def compilePiece (alphabet : Option Alphabet) (env : Environment) :
    Pattern → Compiling Pattern.Piece
  | .union a b => do
    let first ← compilePiece alphabet env a
    let second ← compilePiece alphabet env b
    joinAlternatives first second
  | .concat a b => do
    let first ← compilePiece alphabet env a
    let second ← compilePiece alphabet env b
    joinSequence first second
  | .inter a b => do
    let first ← compilePiece alphabet env a
    let second ← compilePiece alphabet env b
    apply₂ inter first second
  | .optional a => do apply optional (← compilePiece alphabet env a)
  | .star a => do apply star (← compilePiece alphabet env a)
  | .atLeast min a => do apply (atLeast · min) (← compilePiece alphabet env a)
  | .between min max a => do apply (between · min max) (← compilePiece alphabet env a)
  | .complement a => do apply complement (← compilePiece alphabet env a)
  | .char c => return .single (← ofRange c c)
  | .range lo hi => return .single (← ofRange lo hi)
  | .anyChar => return .single (← anyCharDfa alphabet)
  | .anyWord => return .single (← anyWord)
  | .empty => return .single .empty
  | .literal text => return .single (← ofWord text)
  | .reference name => return .single (← env.resolve name)
  | .numerals lo hi width => return .single (← numerals (.ofNat lo) (.ofNat hi) width)

/-- The minimal automaton of a pattern, for an alphabet and an environment. -/
def compile (alphabet : Option Alphabet) (env : Environment) (p : Pattern) : Compiling Dfa := do
  let piece ← compilePiece alphabet env p
  let d ← close piece
  minimized d

end PatternAutomata.Checked
