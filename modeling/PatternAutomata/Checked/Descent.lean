import PatternAutomata.Pattern.Parser

/-!
# Descending through the notation

The productions of the notation as they call one another, without anything that makes the
calls come to an end. Each production is a step that is given the calls it makes
(`Production.step`). The calls go down to a given depth; when it is used up, there is no
answer (`descend`).

A loop is a production that calls itself with what it has read so far: the quantifiers after
a pattern, and the items of a class.
-/

namespace PatternAutomata

namespace Cursor

/-- The next character, and the place after it. -/
def step? : Cursor → Option (Char × Cursor)
  | ⟨[], _⟩ => none
  | ⟨x :: rest, position⟩ => some (x, ⟨rest, position + 1⟩)

/-- The place after a given character, if it is next. -/
def pass? (c : Cursor) (x : Char) : Option Cursor :=
  match c.step? with
  | some (y, rest) => if y = x then some rest else none
  | none => none

end Cursor

namespace Pattern

/-- The productions of the notation. -/
inductive Production where
  | alternatives
  | conjunction
  | sequence
  | quantified
  | quantifiers (body : Pattern)
  | negated
  | charClass
  | simple
  | classItems
  | moreItems (items : Pattern)
  | classItem
  | group
  | angled
  | escaped
  | quoted

/-- An answer or a syntax error, or neither if the depth is used up. -/
abbrev Descent := ExceptT SyntaxError Option

/-- What a production reads, and the place where it stops. -/
abbrev Reading := Descent (Pattern × Cursor)

namespace Descent

/-- The depth is used up. -/
def exhausted {α : Type} : Descent α := ExceptT.mk none

/-! ## Characters and numbers -/

/-- Goes past a given character, which has to be next. -/
def expect (c : Cursor) (x : Char) : Descent (Unit × Cursor) :=
  match c.pass? x with
  | some rest => pure ((), rest)
  | none => throw (c.error (.expected x))

/-- A number that fits into 32 bits. -/
def integer (c : Cursor) : Descent (Nat × Cursor) :=
  let digits := c.taken CharClass.isDigit
  if digits.isEmpty then throw (c.error .integerExpected)
  else if Decimal.read digits < Cursor.integerLimit then
    pure (Decimal.read digits, c.dropWhile CharClass.isDigit)
  else throw (c.error .integerOverflow)

/-- A character, after an optional backslash. -/
def classMember (c : Cursor) : Descent (Char × Cursor) :=
  let start := (c.pass? '\\').getD c
  match start.step? with
  | some member => pure member
  | none => throw (start.error .unexpectedEnd)

/-- The bounds of a repetition, after the opening brace. -/
def repetition (c : Cursor) : Descent ((Nat × Option Nat) × Cursor) := do
  let (min, rest) ← integer c
  match rest.pass? ',' with
  | none => do
    let (_, rest) ← expect rest '}'
    return ((min, some min), rest)
  | some rest =>
    if rest.peek?.any CharClass.isDigit then do
      let (max, rest) ← integer rest
      let (_, rest) ← expect rest '}'
      return ((min, some max), rest)
    else do
      let (_, rest) ← expect rest '}'
      return ((min, none), rest)

/-! ## Productions that call no other -/

/-- An item of a class. -/
def classItem (c : Cursor) : Reading := do
  let (lo, rest) ← classMember c
  match rest.pass? '-' with
  | none => return (.char lo, rest)
  | some dash =>
    if dash.peek? = some ']' then return (.union (.char lo) (.char '-'), dash)
    else do
      let (hi, rest) ← classMember dash
      return (.range lo hi, rest)

/-- A form in angle brackets, after the opening one. -/
def angled (e : Extensions) (c : Cursor) : Reading := do
  let close := c.dropWhile (· ≠ '>')
  let (_, rest) ← expect close '>'
  match Parser.angleContent e (c.taken (· ≠ '>')) with
  | .ok pattern => return (pattern, rest)
  | .error fault => throw (close.error fault)

/-- An escape, after its backslash. -/
def escaped (alphabet : Option Alphabet) (c : Cursor) : Reading :=
  match c.step? with
  | some (x, rest) =>
    pure (if x ∈ Parser.classLetters then Parser.classEscape alphabet x else .char x, rest)
  | none => throw (c.error .unexpectedEnd)

/-- Quoted text, after its opening quote. -/
def quoted (c : Cursor) : Reading := do
  let (_, rest) ← expect (c.dropWhile (· ≠ '"')) '"'
  return (.literal (c.taken (· ≠ '"')), rest)

/-! ## Productions that call others -/

section Calls

variable (n : Notation) (call : Production → Cursor → Reading)

/-- Patterns with bars between them; the union goes on to the right. -/
def alternatives (c : Cursor) : Reading := do
  let (first, rest) ← call .conjunction c
  match rest.pass? '|' with
  | some rest => do
    let (second, rest) ← call .alternatives rest
    return (.union first second, rest)
  | none => return (first, rest)

/-- Patterns with ampersands between them, if intersection is on. -/
def conjunction (c : Cursor) : Reading := do
  let (first, rest) ← call .sequence c
  match if n.extensions.intersection then rest.pass? '&' else none with
  | some rest => do
    let (second, rest) ← call .conjunction rest
    return (.inter first second, rest)
  | none => return (first, rest)

/-- Patterns one after the other, up to a character that ends a sequence or the end of the
text. -/
def sequence (c : Cursor) : Reading := do
  let (first, rest) ← call .quantified c
  if rest.peek?.all (Parser.endsSequence n.extensions) then return (first, rest)
  else do
    let (second, rest) ← call .sequence rest
    return (join first second, rest)

/-- A pattern and the quantifiers after it. -/
def quantified (c : Cursor) : Reading := do
  let (body, rest) ← call .negated c
  call (.quantifiers body) rest

/-- One quantifier, and those after it. -/
def quantifiers (body : Pattern) (c : Cursor) : Reading :=
  match c.step? with
  | some ('?', rest) => call (.quantifiers (.optional body)) rest
  | some ('*', rest) => call (.quantifiers (.star body)) rest
  | some ('+', rest) => call (.quantifiers (.atLeast 1 body)) rest
  | some ('{', rest) => do
    let ((min, max?), rest) ← repetition rest
    match max? with
    | none => call (.quantifiers (.atLeast min body)) rest
    | some max =>
      if max < min then throw (c.error (.boundsOutOfOrder min max))
      else call (.quantifiers (.between min max body)) rest
  | _ => pure (body, c)

/-- A pattern with any number of tildes before it, if complement is on. -/
def negated (c : Cursor) : Reading :=
  match if n.extensions.complement then c.pass? '~' else none with
  | some rest => do
    let (body, rest) ← call .negated rest
    return (.complement body, rest)
  | none => call .charClass c

/-- A class in square brackets, or a form that is none. A caret right after the opening
bracket excludes the items. -/
def charClass (c : Cursor) : Reading :=
  match c.pass? '[' with
  | some rest => do
    let (items, close) ← call .classItems ((rest.pass? '^').getD rest)
    let (_, close) ← expect close ']'
    return (if rest.peek? = some '^' then exclude items else items, close)
  | none => call .simple c

/-- A form that is neither composed nor a class. -/
def simple (c : Cursor) : Reading :=
  let e := n.extensions
  match c.step? with
  | none => throw (c.error .unexpectedEnd)
  | some (x, rest) =>
    if x = '.' then pure (.anyChar, rest)
    else if x = '#' ∧ e.empty then pure (.empty, rest)
    else if x = '@' ∧ e.anyWord then pure (.anyWord, rest)
    else if x = '"' then call .quoted rest
    else if x = '(' then call .group rest
    else if x = '<' ∧ (e.reference ∨ e.numerals) then call .angled rest
    else if x = '\\' then call .escaped rest
    else pure (.char x, rest)

/-- The items of a class, of which there has to be one. -/
def classItems (c : Cursor) : Reading := do
  let (item, rest) ← call .classItem c
  call (.moreItems item) rest

/-- The items of a class up to a closing bracket or the end of the text. -/
def moreItems (items : Pattern) (c : Cursor) : Reading :=
  if c.peek? = none ∨ c.peek? = some ']' then pure (items, c)
  else do
    let (item, rest) ← call .classItem c
    call (.moreItems (.union items item)) rest

/-- The place after the flags of a group. -/
def skipFlags (c : Cursor) : Cursor :=
  match c.pass? '?' with
  | none => c
  | some rest =>
    let flagless := rest.dropWhile (· ∈ Parser.groupFlags)
    (flagless.pass? ':').getD flagless

/-- The rest of a group after its opening parenthesis; an empty one matches the empty
word. -/
def group (c : Cursor) : Reading :=
  let start := skipFlags c
  match start.pass? ')' with
  | some rest => pure (.literal [], rest)
  | none => do
    let (body, rest) ← call .alternatives start
    let (_, rest) ← expect rest ')'
    return (body, rest)

end Calls

end Descent

/-- What a production does, given what the productions that it calls do. -/
def Production.step (n : Notation) (call : Production → Cursor → Reading) :
    Production → Cursor → Reading
  | .alternatives => Descent.alternatives call
  | .conjunction => Descent.conjunction n call
  | .sequence => Descent.sequence n call
  | .quantified => Descent.quantified call
  | .quantifiers body => Descent.quantifiers call body
  | .negated => Descent.negated n call
  | .charClass => Descent.charClass call
  | .simple => Descent.simple n call
  | .classItems => Descent.classItems call
  | .moreItems items => Descent.moreItems call items
  | .classItem => Descent.classItem
  | .group => Descent.group call
  | .angled => Descent.angled n.extensions
  | .escaped => Descent.escaped n.alphabet
  | .quoted => Descent.quoted

/-- What a production reads with calls down to a given depth. -/
def descend (n : Notation) : Nat → Production → Cursor → Reading
  | 0 => fun _ _ => Descent.exhausted
  | depth + 1 => Production.step n (descend n depth)

/-- Reads a pattern with calls down to a given depth. -/
def parseWithin (n : Notation) (depth : Nat) (text : List Char) : Descent Pattern :=
  if text.isEmpty then pure (.literal [])
  else do
    let (pattern, rest) ← descend n depth .alternatives (Cursor.ofText text)
    if rest.chars.isEmpty then return pattern else throw (rest.error .trailingInput)

end Pattern

end PatternAutomata
