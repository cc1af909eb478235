import PatternAutomata.Pattern.Compilation
import PatternAutomata.Pattern.Parser

/-!
# Regular expressions

A `Regex` is a pattern together with the alphabet that it was read for.
Its pattern can be written as text again.
-/

/-! ## Writing patterns

A pattern is written with parentheses around everything that is composed, so that
its text means the same wherever it stands. `render` writes in front of a text that
is there already; `display` writes a pattern alone.

A character is written with a backslash, unless that would make it a class escape.
Quoted text has no escapes, so text with quotes in it is written as a group of
quoted pieces and escaped quotes. -/

namespace PatternAutomata.Pattern

/-- The parts of a text between its quotes. -/
def pieces : List Char → List (List Char)
  | [] => [[]]
  | c :: cs =>
    match pieces cs with
    | p :: ps => if c = '"' then [] :: p :: ps else (c :: p) :: ps
    | [] => []

/-- A piece of text in quotes; nothing for an empty one. -/
def renderPiece (piece rest : List Char) : List Char :=
  if piece.isEmpty then rest else '"' :: (piece ++ '"' :: rest)

/-- Pieces of text with escaped quotes between them. -/
def renderPieces : List (List Char) → List Char → List Char
  | [], rest => rest
  | [p], rest => renderPiece p rest
  | p :: ps, rest => renderPiece p ('\\' :: '"' :: renderPieces ps rest)

/-- A literal text. -/
def renderLiteral (text rest : List Char) : List Char :=
  if '"' ∈ text then '(' :: renderPieces (pieces text) (')' :: rest)
  else '"' :: (text ++ '"' :: rest)

/-- A literal character. -/
def renderChar (c : Char) (rest : List Char) : List Char :=
  if c ∈ Parser.classLetters then c :: rest else '\\' :: c :: rest

/-- Writes a pattern in front of a text. -/
def render : Pattern → List Char → List Char
  | union a b, rest => '(' :: render a ('|' :: render b (')' :: rest))
  | concat a b, rest => '(' :: render a (render b (')' :: rest))
  | inter a b, rest => '(' :: render a ('&' :: render b (')' :: rest))
  | optional a, rest => '(' :: render a (')' :: '?' :: rest)
  | star a, rest => '(' :: render a (')' :: '*' :: rest)
  | atLeast min a, rest =>
    '(' :: render a (')' :: '{' :: (Decimal.render 0 min ++ ',' :: '}' :: rest))
  | between min max a, rest =>
    '(' :: render a (')' :: '{' ::
      (Decimal.render 0 min ++ ',' :: (Decimal.render 0 max ++ '}' :: rest)))
  | complement a, rest => '~' :: '(' :: render a (')' :: rest)
  | char c, rest => renderChar c rest
  | range lo hi, rest => '[' :: '\\' :: lo :: '-' :: '\\' :: hi :: ']' :: rest
  | anyChar, rest => '.' :: rest
  | anyWord, rest => '@' :: rest
  | empty, rest => '#' :: rest
  | literal text, rest => renderLiteral text rest
  | reference name, rest => '<' :: (name.toList ++ '>' :: rest)
  | numerals lo hi width, rest =>
    '<' :: (Decimal.render width lo ++ '-' :: (Decimal.render width hi ++ '>' :: rest))

/-- The text of a pattern. -/
def display (p : Pattern) : String := String.ofList (p.render [])

end PatternAutomata.Pattern

/-! ## Expressions -/

namespace PatternAutomata

/-- A pattern and its alphabet, if one is set. -/
structure Regex where
  pattern : Pattern
  alphabet : Option Alphabet
deriving DecidableEq

namespace Regex

/-- Reads a pattern in a notation. -/
def ofText (n : Notation) (text : List Char) : Except SyntaxError Regex := do
  return ⟨← Pattern.parse n text, n.alphabet⟩

/-- The characters that the pattern mentions, in ascending order. -/
def usedAlphabet (r : Regex) : List Char := (r.pattern.usedChars r.alphabet).toList

/-- The names of the automata that the pattern refers to. -/
def names (r : Regex) : List String := r.pattern.names

/-- The minimal automaton, with the automata of an environment. -/
def compile (r : Regex) (env : Environment) : Resolving Dfa :=
  r.pattern.compile r.alphabet env

/-- The minimal automaton of an expression without references. -/
def toDfa (r : Regex) : Except UnresolvedReference Dfa := (r.compile .empty).outcome.1

end Regex

end PatternAutomata
