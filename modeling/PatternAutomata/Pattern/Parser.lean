import PatternAutomata.Pattern.Basic
import PatternAutomata.Pattern.Cursor

/-!
# Reading patterns

The notation, from loosest to tightest; what is in brackets depends on an
extension:

    alternatives ::= conjunction | conjunction '|' alternatives
    conjunction  ::= sequence [ | sequence '&' conjunction ]
    sequence     ::= quantified | quantified sequence
    quantified   ::= negated ( '?' | '*' | '+' | '{' n '}' | '{' n ',}' | '{' n ',' m '}' )*
    negated      ::= [ '~' negated | ] bracketed
    bracketed    ::= '[' '^'? item+ ']' | simple
    item         ::= member | member '-' member
    simple       ::= '.' [ | '#' | '@' | '<' name '>' | '<' n '-' m '>' ]
                   | '"' text '"' | '(' ')' | '(' alternatives ')'
                   | '\' character | character

A group may begin with `?`, some of the flags `imnsx-` and a colon, none of which
means anything. A character that begins no form stands for itself. Each form goes
on for as long as the next character allows.

Every step consumes a character before it comes back to where it started, so
reading ends on every text.
-/

namespace PatternAutomata

/-- What the meaning of a text depends on: the extensions that are on, and the
alphabet that class escapes pick from, if one is set. -/
structure Notation where
  extensions : Extensions
  alphabet : Option Alphabet
deriving DecidableEq

namespace Pattern.Parser

/-! ## Bracketed classes -/

/-- A member of a class: a character, after an optional backslash. -/
def classMember (c : Cursor) : Result Char c :=
  let ⟨start, h⟩ := c.skipAny '\\'
  match start.next? with
  | some member => .ok (⟨member.value, member.rest, Nat.lt_of_lt_of_le member.progress h⟩)
  | none => .error (start.error .unexpectedEnd)

/-- An item of a class: a member, or a range of characters. A dash before the
closing bracket stands for itself. -/
def classItem (c : Cursor) : Result Pattern c := do
  let ⟨lo, rest, h⟩ ← classMember c
  match rest.skip? '-' with
  | none => return ⟨.char lo, rest, h⟩
  | some ⟨_, dash, hd⟩ =>
    have hdash : dash.chars.length < c.chars.length := Nat.lt_trans hd h
    if dash.peek? = some ']' then
      return ⟨.union (.char lo) (.char '-'), dash, hdash⟩
    else do
      let hi ← classMember dash
      return hi.within hdash (.range lo)

/-- The items of a class up to a closing bracket or the end of the text, joined to
the items before them. -/
def moreItems {origin : Cursor} (items : Pattern) (c : Cursor)
    (h : c.chars.length < origin.chars.length) : Result Pattern origin :=
  if c.peek? = none ∨ c.peek? = some ']' then .ok ⟨items, c, h⟩
  else do
    let ⟨item, rest, hr⟩ ← classItem c
    moreItems (.union items item) rest (Nat.lt_trans hr h)
termination_by c.chars.length

/-- The items of a class, at least one. -/
def classItems (c : Cursor) : Result Pattern c := do
  let ⟨item, rest, h⟩ ← classItem c
  moreItems item rest h

/-- A class after its opening bracket. -/
def bracketed (c : Cursor) : Result Pattern c := do
  let ⟨start, hs⟩ := c.skipAny '^'
  let ⟨items, rest, h⟩ ← classItems start
  let ⟨_, rest, he⟩ ← rest.expect ']'
  let pattern := if c.peek? = some '^' then exclude items else items
  return ⟨pattern, rest, Nat.lt_of_lt_of_le (Nat.lt_trans he h) hs⟩

/-! ## Other simple forms -/

/-- Quoted text after its opening quote. -/
def quoted (c : Cursor) : Result Pattern c := do
  let text := c.taken (· ≠ '"')
  let ⟨_, rest, h⟩ ← (c.dropWhile (· ≠ '"')).expect '"'
  return ⟨.literal text, rest, Nat.lt_of_lt_of_le h (c.length_dropWhile_le _)⟩

/-- A range of numerals, from the text before and after a dash. Bounds of the same
length fix the width of the numerals. -/
def numeralRange (lo hi : List Char) : Except SyntaxFault Pattern :=
  if lo.isEmpty || hi.isEmpty || !(lo ++ hi).all CharClass.isDigit then
    .error .numeralsExpected
  else
    let a := Decimal.read lo
    let b := Decimal.read hi
    if Cursor.integerLimit ≤ a ∨ Cursor.integerLimit ≤ b then .error .integerOverflow
    else
      let width := if lo.length = hi.length then lo.length else 0
      .ok (.numerals (min a b) (max a b) width)

/-- What the text between angle brackets stands for: without a dash a name, with
one a range of numerals. -/
def angleContent (e : Extensions) (text : List Char) : Except SyntaxFault Pattern :=
  let lo := text.takeWhile (· ≠ '-')
  match text.dropWhile (· ≠ '-') with
  | [] =>
    if e.reference then .ok (.reference (String.ofList text)) else .error .numeralsExpected
  | _ :: hi => if e.numerals then numeralRange lo hi else .error .illegalName

/-- A form in angle brackets after the opening one. What is wrong with its content
is reported at the closing one. -/
def angled (e : Extensions) (c : Cursor) : Result Pattern c := do
  let text := c.taken (· ≠ '>')
  let close := c.dropWhile (· ≠ '>')
  let ⟨_, rest, h⟩ ← close.expect '>'
  match angleContent e text with
  | .ok pattern => return ⟨pattern, rest, Nat.lt_of_lt_of_le h (c.length_dropWhile_le _)⟩
  | .error fault => .error (close.error fault)

/-- The class of characters that an escape stands for, given the lower-case letter:
a test, and a pattern for use without an alphabet. -/
def escapeClass (letter : Char) : (Char → Bool) × Pattern :=
  if letter = 'd' then (CharClass.isDigit, .range '0' '9')
  else if letter = 's' then (CharClass.isSpace, .union (.char ' ') (.char '\t'))
  else (CharClass.isWord,
    unionAll [.char '_', .range 'A' 'Z', .range 'a' 'z', .range '0' '9'])

/-- The pattern of a class escape. Lower-case letters stand for a class, upper-case
ones for the rest of the alphabet. -/
def classEscape (alphabet : Option Alphabet) (letter : Char) : Pattern :=
  let (test, fixed) := escapeClass letter.toLower
  let negated := letter.isUpper
  match alphabet with
  | some a => ofChars (a.filter fun c => test c != negated)
  | none => if negated then exclude fixed else fixed

/-- The letters that stand for a class after a backslash. -/
def classLetters : List Char := ['d', 'D', 's', 'S', 'w', 'W']

/-- An escape after its backslash. -/
def escaped (alphabet : Option Alphabet) (c : Cursor) : Result Pattern c :=
  match c.next? with
  | some ⟨x, rest, h⟩ =>
    .ok ⟨if x ∈ classLetters then classEscape alphabet x else .char x, rest, h⟩
  | none => .error (c.error .unexpectedEnd)

/-- The flags that may stand after the question mark at the beginning of a group. -/
def groupFlags : List Char := ['i', 'm', 'n', 's', 'x', '-']

/-- The place after the flags of a group. -/
def skipFlags (c : Cursor) : c.Onward :=
  match c.skip? '?' with
  | none => c.stay
  | some ⟨_, rest, h⟩ =>
    let flagless := rest.dropWhile (· ∈ groupFlags)
    let ⟨d, hd⟩ := flagless.skipAny ':'
    ⟨d, Nat.le_trans hd (Nat.le_trans (rest.length_dropWhile_le _) (Nat.le_of_lt h))⟩

/-! ## Quantifiers -/

/-- A repetition count in braces, after the opening one: the lower bound, and the
upper bound if there is one. -/
def repetition (c : Cursor) : Result (Nat × Option Nat) c := do
  let ⟨min, rest, h⟩ ← c.integer
  match rest.skip? ',' with
  | none => do
    let close ← rest.expect '}'
    return close.within h fun _ => (min, some min)
  | some ⟨_, rest', h'⟩ =>
    have hr : rest'.chars.length < c.chars.length := Nat.lt_trans h' h
    if rest'.peek?.any CharClass.isDigit then do
      let ⟨max, rest'', h''⟩ ← rest'.integer
      let close ← rest''.expect '}'
      return close.within (Nat.lt_trans h'' hr) fun _ => (min, some max)
    else do
      let close ← rest'.expect '}'
      return close.within hr fun _ => (min, none)

/-- The quantifiers from a cursor on, applied to a pattern. -/
def quantifiers {origin : Cursor} (body : Pattern) (c : Cursor)
    (h : c.chars.length < origin.chars.length) : Result Pattern origin :=
  match c.next? with
  | some ⟨'?', rest, hr⟩ => quantifiers (.optional body) rest (Nat.lt_trans hr h)
  | some ⟨'*', rest, hr⟩ => quantifiers (.star body) rest (Nat.lt_trans hr h)
  | some ⟨'+', rest, hr⟩ => quantifiers (.atLeast 1 body) rest (Nat.lt_trans hr h)
  | some ⟨'{', rest, hr⟩ => do
    let ⟨(min, max?), rest', hr'⟩ ← repetition rest
    have hlt : rest'.chars.length < c.chars.length := Nat.lt_trans hr' hr
    match max? with
    | none => quantifiers (.atLeast min body) rest' (Nat.lt_trans hlt h)
    | some max =>
      if max < min then .error (c.error (.boundsOutOfOrder min max))
      else quantifiers (.between min max body) rest' (Nat.lt_trans hlt h)
  | _ => .ok ⟨body, c, h⟩
termination_by c.chars.length

/-! ## The levels of the notation -/

/-- Whether a sequence cannot go on with this character. -/
def endsSequence (e : Extensions) (x : Char) : Bool :=
  x == ')' || x == '|' || (x == '&' && e.intersection)

mutual

/-- Alternatives, separated by bars. -/
def alternatives (n : Notation) (c : Cursor) : Result Pattern c := do
  let ⟨first, rest, h⟩ ← conjunction n c
  match rest.skip? '|' with
  | some ⟨_, rest', h'⟩ => do
    have hlt : rest'.chars.length < c.chars.length := Nat.lt_trans h' h
    let second ← alternatives n rest'
    return second.within hlt (.union first)
  | none => return ⟨first, rest, h⟩
termination_by 8 * c.chars.length + 6

/-- Patterns that have to match together, separated by ampersands. -/
def conjunction (n : Notation) (c : Cursor) : Result Pattern c := do
  let ⟨first, rest, h⟩ ← sequence n c
  match if n.extensions.intersection then rest.skip? '&' else none with
  | some ⟨_, rest', h'⟩ => do
    have hlt : rest'.chars.length < c.chars.length := Nat.lt_trans h' h
    let second ← conjunction n rest'
    return second.within hlt (.inter first)
  | none => return ⟨first, rest, h⟩
termination_by 8 * c.chars.length + 5

/-- Patterns that follow one another. -/
def sequence (n : Notation) (c : Cursor) : Result Pattern c := do
  let ⟨first, rest, h⟩ ← quantified n c
  if rest.peek?.all (endsSequence n.extensions) then return ⟨first, rest, h⟩
  else do
    let second ← sequence n rest
    return second.within h (join first)
termination_by 8 * c.chars.length + 4

/-- A pattern with its quantifiers. -/
def quantified (n : Notation) (c : Cursor) : Result Pattern c := do
  let ⟨body, rest, h⟩ ← negated n c
  quantifiers body rest h
termination_by 8 * c.chars.length + 3

/-- A pattern with the tildes before it. -/
def negated (n : Notation) (c : Cursor) : Result Pattern c :=
  match if n.extensions.complement then c.skip? '~' else none with
  | some ⟨_, rest, h⟩ => do
    let body ← negated n rest
    return body.within h .complement
  | none => simple n c
termination_by 8 * c.chars.length + 2

/-- A form that is not composed, a class or a group. -/
def simple (n : Notation) (c : Cursor) : Result Pattern c :=
  let e := n.extensions
  match c.next? with
  | none => .error (c.error .unexpectedEnd)
  | some ⟨x, rest, h⟩ =>
    if x = '[' then (bracketed rest).map (·.within h id)
    else if x = '.' then .ok ⟨.anyChar, rest, h⟩
    else if x = '#' ∧ e.empty then .ok ⟨.empty, rest, h⟩
    else if x = '@' ∧ e.anyWord then .ok ⟨.anyWord, rest, h⟩
    else if x = '"' then (quoted rest).map (·.within h id)
    else if x = '(' then do
      let body ← group n rest
      return body.within h id
    else if x = '<' ∧ (e.reference ∨ e.numerals) then (angled e rest).map (·.within h id)
    else if x = '\\' then (escaped n.alphabet rest).map (·.within h id)
    else .ok ⟨.char x, rest, h⟩
termination_by 8 * c.chars.length + 1

/-- A group after its opening parenthesis. -/
def group (n : Notation) (c : Cursor) : Result Pattern c :=
  let ⟨start, hs⟩ := skipFlags c
  match start.skip? ')' with
  | some ⟨_, rest, h⟩ => .ok ⟨.literal [], rest, Nat.lt_of_lt_of_le h hs⟩
  | none => do
    let ⟨body, rest, h⟩ ← alternatives n start
    let close ← rest.expect ')'
    return close.within (Nat.lt_of_lt_of_le h hs) fun _ => body
termination_by 8 * c.chars.length + 7

end

end Pattern.Parser

/-- Reads a pattern. The empty text stands for the empty word. -/
def Pattern.parse (n : Notation) (text : List Char) : Except SyntaxError Pattern :=
  if text.isEmpty then .ok (.literal [])
  else do
    let ⟨pattern, rest, _⟩ ← Parser.alternatives n (Cursor.ofText text)
    if rest.chars.isEmpty then return pattern else .error (rest.error .trailingInput)

end PatternAutomata
