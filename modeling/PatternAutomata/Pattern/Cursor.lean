import PatternAutomata.CharClass
import PatternAutomata.Decimal

/-!
# The notation, its errors and places in a text

Before a pattern can be read it has to be said which forms of the notation are on
(`Extensions`), what can be wrong with a text (`SyntaxError`), and what it means to go on
in it (`Cursor`, `Parsed`).
-/

/-! ## Extensions of the pattern notation

Six forms of the notation can be switched on and off. The characters that announce
a form which is off stand for themselves. -/

namespace PatternAutomata

/-- A set of forms beyond the usual ones. -/
structure Extensions where
  /-- `a&b`, what both match. -/
  intersection : Bool
  /-- `~a`, what does not match. -/
  complement : Bool
  /-- `#`, which matches nothing. -/
  empty : Bool
  /-- `@`, which matches every word. -/
  anyWord : Bool
  /-- `<name>`, what a named automaton accepts. -/
  reference : Bool
  /-- `<lo-hi>`, the numerals of a range of numbers. -/
  numerals : Bool
deriving DecidableEq, Repr

namespace Extensions

/-- No extension. -/
def none : Extensions := ⟨false, false, false, false, false, false⟩

/-- Every extension. -/
def all : Extensions := ⟨true, true, true, true, true, true⟩

instance : Inhabited Extensions := ⟨all⟩

/-- Takes two sets apart and puts the answers for each extension together. -/
def zipWith (f : Bool → Bool → Bool) (a b : Extensions) : Extensions where
  intersection := f a.intersection b.intersection
  complement := f a.complement b.complement
  empty := f a.empty b.empty
  anyWord := f a.anyWord b.anyWord
  reference := f a.reference b.reference
  numerals := f a.numerals b.numerals

/-- The extensions in either set. -/
def union (a b : Extensions) : Extensions := zipWith (· || ·) a b

/-- The extensions in both sets. -/
def inter (a b : Extensions) : Extensions := zipWith (· && ·) a b

/-- The extensions that are not in the set. -/
def invert (a : Extensions) : Extensions := zipWith (fun x _ => !x) a a

/-- Whether the first set has all extensions of the second. -/
def contains (a b : Extensions) : Bool := decide (a.inter b = b)

end Extensions

/-! ## Errors in the text of a pattern

An error says what is wrong and where: its position is the number of characters
before the place. -/

/-- What is wrong with the text of a pattern. -/
inductive SyntaxFault where
  /-- The pattern is complete, but there is more text. -/
  | trailingInput
  /-- Another character has to stand here. -/
  | expected (c : Char)
  /-- The text ends in the middle of a form. -/
  | unexpectedEnd
  /-- A number has to stand here. -/
  | integerExpected
  /-- A number does not fit into 32 bits. -/
  | integerOverflow
  /-- The text between angle brackets is not a range of numbers. -/
  | numeralsExpected
  /-- A name must not have a dash in it. -/
  | illegalName
  /-- The bounds of a repetition are not in order. -/
  | boundsOutOfOrder (min max : Nat)
deriving DecidableEq, Repr

/-- The text for a fault. -/
def SyntaxFault.message : SyntaxFault → String
  | .trailingInput => "end-of-string expected"
  | .expected c => "expected '" ++ c.toString ++ "'"
  | .unexpectedEnd => "unexpected end-of-string"
  | .integerExpected => "integer expected"
  | .integerOverflow => "integer too large"
  | .numeralsExpected => "interval syntax error"
  | .illegalName => "illegal identifier"
  | .boundsOutOfOrder min max =>
    "repetition lower bound " ++ toString min ++ " exceeds upper bound " ++ toString max

/-- A fault and the number of characters before it. -/
structure SyntaxError where
  position : Nat
  fault : SyntaxFault
deriving DecidableEq, Repr

/-- The text for an error. -/
def SyntaxError.message (e : SyntaxError) : String :=
  e.fault.message ++ " at position " ++ toString e.position

/-! ## Places in the text of a pattern

A `Cursor` is what remains of a text and how many characters came before it. The
steps of a parser go from a cursor to a later one, and `Parsed` is the outcome of
such a step: what was read, where to go on, and that something was read at all.
The last makes every parser built from such steps come to an end. -/

/-- The rest of a text and the number of characters before it. -/
structure Cursor where
  chars : List Char
  position : Nat
deriving DecidableEq

/-- Something that was read from a cursor on, with at least one character. -/
structure Parsed (α : Type) (c : Cursor) where
  value : α
  rest : Cursor
  progress : rest.chars.length < c.chars.length

/-- Something that was read, or what is wrong with the text. -/
abbrev Result (α : Type) (c : Cursor) := Except SyntaxError (Parsed α c)

namespace Parsed

/-- What was read from a later cursor on was read from an earlier one on. -/
def within {α β : Type} {c d : Cursor} (h : d.chars.length < c.chars.length) (f : α → β)
    (r : Parsed α d) : Parsed β c :=
  ⟨f r.value, r.rest, Nat.lt_trans r.progress h⟩

end Parsed

/-- A result without the evidence that something was read. -/
def Result.erase {α : Type} {c : Cursor} (r : Result α c) : Except SyntaxError (α × Cursor) :=
  r.map fun p => (p.value, p.rest)

namespace Cursor

/-- The beginning of a text. -/
def ofText (text : List Char) : Cursor := ⟨text, 0⟩

/-- An error at this place. -/
def error (c : Cursor) (fault : SyntaxFault) : SyntaxError := ⟨c.position, fault⟩

/-- The next character. -/
def next? (c : Cursor) : Option (Parsed Char c) :=
  match c with
  | ⟨[], _⟩ => none
  | ⟨x :: rest, position⟩ => some ⟨x, ⟨rest, position + 1⟩, by simp⟩

/-- The next character, without going on. -/
def peek? (c : Cursor) : Option Char := c.chars.head?

/-- Goes past a given character if it is next. -/
def skip? (c : Cursor) (x : Char) : Option (Parsed Unit c) :=
  match c.next? with
  | some ⟨y, rest, h⟩ => if y = x then some ⟨(), rest, h⟩ else none
  | none => none

/-- Goes past a given character, which has to be next. -/
def expect (c : Cursor) (x : Char) : Result Unit c :=
  match c.skip? x with
  | some step => .ok step
  | none => .error (c.error (.expected x))

/-- A place that is not before a given one. -/
abbrev Onward (c : Cursor) := { d : Cursor // d.chars.length ≤ c.chars.length }

/-- The place itself. -/
def stay (c : Cursor) : Onward c := ⟨c, Nat.le_refl _⟩

/-- Goes past a given character if it is next, and stays otherwise. -/
def skipAny (c : Cursor) (x : Char) : Onward c :=
  match c.skip? x with
  | some step => ⟨step.rest, Nat.le_of_lt step.progress⟩
  | none => c.stay

/-- The characters that pass a test, up to the first that does not. -/
def taken (c : Cursor) (test : Char → Bool) : List Char := c.chars.takeWhile test

/-- The place after the characters that pass a test. -/
def dropWhile (c : Cursor) (test : Char → Bool) : Cursor :=
  ⟨c.chars.dropWhile test, c.position + (c.taken test).length⟩

theorem length_dropWhile_le (c : Cursor) (test : Char → Bool) :
    (c.dropWhile test).chars.length ≤ c.chars.length :=
  (List.dropWhile_suffix test).length_le

/-- The least number that does not fit into 32 bits. -/
def integerLimit : Nat := 0x100000000

/-- A number below the limit in decimal digits, as many as there are. -/
def integer (c : Cursor) : Result Nat c :=
  let digits := c.taken CharClass.isDigit
  let rest := c.dropWhile CharClass.isDigit
  if h : rest.chars.length < c.chars.length then
    if Decimal.read digits < integerLimit then .ok ⟨Decimal.read digits, rest, h⟩
    else .error (c.error .integerOverflow)
  else .error (c.error .integerExpected)

end Cursor

end PatternAutomata
