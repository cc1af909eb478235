import PatternAutomata.Pattern.Parser

/-!
# The grammar of the notation

What a text means is laid down here by rules, independently of how it is read. A
rule relates a text, the pattern that a beginning of it stands for, and the rest of
the text.

Three principles make a reading unique. The form of a part is chosen by its first
character, and a character that begins no other form stands for itself. A part goes
on for as long as the next character allows. A form that belongs to an extension
exists only if the extension is on.

## Main definitions

* `Grammar.Alternatives`: the start symbol of the grammar.
* `Pattern.Reads`: what a whole text stands for.
-/

namespace PatternAutomata.Grammar

/-- No digit follows. -/
def NoDigit (rest : List Char) : Prop := ∀ c ∈ rest.head?, CharClass.isDigit c = false

/-- A maximal run of digits for a number that fits into 32 bits. -/
inductive Integer : List Char → Nat → List Char → Prop where
  | intro {ds rest : List Char} :
      ds ≠ [] → (∀ c ∈ ds, CharClass.isDigit c = true) → NoDigit rest →
      Decimal.read ds < Cursor.integerLimit → Integer (ds ++ rest) (Decimal.read ds) rest

/-! ## Quantifiers -/

/-- What may stand between braces: a count, a least count, or both bounds. -/
inductive Repetition : List Char → (Pattern → Pattern) → List Char → Prop where
  | exactly {s rest : List Char} {n : Nat} :
      Integer s n ('}' :: rest) → Repetition s (.between n n) rest
  | atLeast {s rest : List Char} {n : Nat} :
      Integer s n (',' :: '}' :: rest) → Repetition s (.atLeast n) rest
  | between {s t rest : List Char} {n m : Nat} :
      Integer s n (',' :: t) → Integer t m ('}' :: rest) → n ≤ m →
      Repetition s (.between n m) rest

/-- The characters that begin a quantifier. -/
def quantifierSigns : List Char := ['?', '*', '+', '{']

/-- A quantifier. -/
inductive Quantifier : List Char → (Pattern → Pattern) → List Char → Prop where
  | optional (rest : List Char) : Quantifier ('?' :: rest) .optional rest
  | star (rest : List Char) : Quantifier ('*' :: rest) .star rest
  | plus (rest : List Char) : Quantifier ('+' :: rest) (.atLeast 1) rest
  | braces {s rest : List Char} {f : Pattern → Pattern} :
      Repetition s f rest → Quantifier ('{' :: s) f rest

/-- As many quantifiers as there are. -/
inductive Quantifiers : List Char → Pattern → Pattern → List Char → Prop where
  | done {rest : List Char} (p : Pattern) :
      (∀ c ∈ rest.head?, c ∉ quantifierSigns) → Quantifiers rest p p rest
  | more {s t rest : List Char} {f : Pattern → Pattern} {p q : Pattern} :
      Quantifier s f t → Quantifiers t (f p) q rest → Quantifiers s p q rest

/-! ## Classes in brackets -/

/-- A member of a class: a character, or any character after a backslash. -/
inductive Member : List Char → Char → List Char → Prop where
  | bare {c : Char} (rest : List Char) : c ≠ '\\' → Member (c :: rest) c rest
  | escaped (c : Char) (rest : List Char) : Member ('\\' :: c :: rest) c rest

/-- An item of a class: a member, a range, or a member and the dash before the
closing bracket. -/
inductive Item : List Char → Pattern → List Char → Prop where
  | single {s rest : List Char} {c : Char} :
      Member s c rest → rest.head? ≠ some '-' → Item s (.char c) rest
  | dash {s rest : List Char} {c : Char} :
      Member s c ('-' :: ']' :: rest) → Item s (.union (.char c) (.char '-')) (']' :: rest)
  | range {s t rest : List Char} {lo hi : Char} :
      Member s lo ('-' :: t) → t.head? ≠ some ']' → Member t hi rest →
      Item s (.range lo hi) rest

/-- The items up to the closing bracket, joined to those before them. -/
inductive Items : List Char → Pattern → Pattern → List Char → Prop where
  | done (p : Pattern) (rest : List Char) : Items (']' :: rest) p p rest
  | more {s t rest : List Char} {p q r : Pattern} :
      s.head? ≠ some ']' → Item s q t → Items t (.union p q) r rest → Items s p r rest

/-- The items of a class, at least one, and the closing bracket. -/
inductive ClassBody : List Char → Pattern → List Char → Prop where
  | intro {s t rest : List Char} {p q : Pattern} :
      Item s p t → Items t p q rest → ClassBody s q rest

/-! ## Angle brackets -/

/-- The content of angle brackets. Without a dash it is a name; with one it is a
range of numbers, and bounds of the same length fix the width of the numerals. -/
inductive Angle (e : Extensions) : List Char → Pattern → Prop where
  | reference {text : List Char} :
      e.reference = true → '-' ∉ text → Angle e text (.reference (String.ofList text))
  | numerals {lo hi : List Char} :
      e.numerals = true → Integer lo (Decimal.read lo) [] → Integer hi (Decimal.read hi) [] →
      Angle e (lo ++ '-' :: hi)
        (.numerals (min (Decimal.read lo) (Decimal.read hi))
          (max (Decimal.read lo) (Decimal.read hi))
          (if lo.length = hi.length then lo.length else 0))

/-! ## The levels of the notation -/

/-- The beginning of a group: nothing, or a question mark, as many flags as there
are, and a colon if there is one. -/
inductive GroupStart : List Char → List Char → Prop where
  | none {s : List Char} : s.head? ≠ some '?' → GroupStart s s
  | flags {fs rest : List Char} :
      (∀ c ∈ fs, c ∈ Pattern.Parser.groupFlags) →
      (∀ c ∈ rest.head?, c ∉ Pattern.Parser.groupFlags) → rest.head? ≠ some ':' →
      GroupStart ('?' :: (fs ++ rest)) rest
  | flagsColon {fs rest : List Char} :
      (∀ c ∈ fs, c ∈ Pattern.Parser.groupFlags) →
      GroupStart ('?' :: (fs ++ ':' :: rest)) rest

/-- The character begins a form other than a plain character. -/
def Special (e : Extensions) (c : Char) : Prop :=
  c ∈ ['[', '.', '"', '(', '\\'] ∨ (c = '#' ∧ e.empty = true) ∨ (c = '@' ∧ e.anyWord = true) ∨
    (c = '<' ∧ (e.reference = true ∨ e.numerals = true)) ∨ (c = '~' ∧ e.complement = true)

/-- A sequence ends before this character. -/
def Ends (e : Extensions) (c : Char) : Prop :=
  c = ')' ∨ c = '|' ∨ (c = '&' ∧ e.intersection = true)

mutual

/-- Conjunctions, separated by bars. -/
inductive Alternatives (n : Notation) : List Char → Pattern → List Char → Prop where
  | last {s rest : List Char} {p : Pattern} :
      Conjunction n s p rest → rest.head? ≠ some '|' → Alternatives n s p rest
  | more {s t rest : List Char} {p q : Pattern} :
      Conjunction n s p ('|' :: t) → Alternatives n t q rest →
      Alternatives n s (.union p q) rest

/-- Sequences, separated by ampersands. -/
inductive Conjunction (n : Notation) : List Char → Pattern → List Char → Prop where
  | last {s rest : List Char} {p : Pattern} :
      Sequence n s p rest → (n.extensions.intersection = true → rest.head? ≠ some '&') →
      Conjunction n s p rest
  | more {s t rest : List Char} {p q : Pattern} :
      n.extensions.intersection = true → Sequence n s p ('&' :: t) →
      Conjunction n t q rest → Conjunction n s (.inter p q) rest

/-- Patterns with their quantifiers, one after the other. -/
inductive Sequence (n : Notation) : List Char → Pattern → List Char → Prop where
  | last {s rest : List Char} {p : Pattern} :
      Quantified n s p rest → (∀ c ∈ rest.head?, Ends n.extensions c) → Sequence n s p rest
  | more {s t rest : List Char} {c : Char} {p q : Pattern} :
      Quantified n s p (c :: t) → ¬ Ends n.extensions c → Sequence n (c :: t) q rest →
      Sequence n s (Pattern.join p q) rest

/-- A pattern with its quantifiers. -/
inductive Quantified (n : Notation) : List Char → Pattern → List Char → Prop where
  | intro {s t rest : List Char} {p q : Pattern} :
      Negated n s p t → Quantifiers t p q rest → Quantified n s q rest

/-- A pattern with the tildes before it. -/
inductive Negated (n : Notation) : List Char → Pattern → List Char → Prop where
  | tilde {s rest : List Char} {p : Pattern} :
      n.extensions.complement = true → Negated n s p rest →
      Negated n ('~' :: s) (.complement p) rest
  | bare {s rest : List Char} {p : Pattern} :
      (n.extensions.complement = true → s.head? ≠ some '~') → Simple n s p rest →
      Negated n s p rest

/-- A form that is not composed, a class or a group. -/
inductive Simple (n : Notation) : List Char → Pattern → List Char → Prop where
  | bracket {s rest : List Char} {p : Pattern} :
      s.head? ≠ some '^' → ClassBody s p rest → Simple n ('[' :: s) p rest
  | negatedBracket {s rest : List Char} {p : Pattern} :
      ClassBody s p rest → Simple n ('[' :: '^' :: s) (Pattern.exclude p) rest
  | anyChar (rest : List Char) : Simple n ('.' :: rest) .anyChar rest
  | empty (rest : List Char) :
      n.extensions.empty = true → Simple n ('#' :: rest) .empty rest
  | anyWord (rest : List Char) :
      n.extensions.anyWord = true → Simple n ('@' :: rest) .anyWord rest
  | quoted {text : List Char} (rest : List Char) :
      '"' ∉ text → Simple n ('"' :: (text ++ '"' :: rest)) (.literal text) rest
  | emptyGroup {s rest : List Char} :
      GroupStart s (')' :: rest) → Simple n ('(' :: s) (.literal []) rest
  | group {s t rest : List Char} {p : Pattern} :
      GroupStart s t → t.head? ≠ some ')' → Alternatives n t p (')' :: rest) →
      Simple n ('(' :: s) p rest
  | angle {text : List Char} {p : Pattern} (rest : List Char) :
      '>' ∉ text → Angle n.extensions text p → Simple n ('<' :: (text ++ '>' :: rest)) p rest
  | classEscape {c : Char} (rest : List Char) :
      c ∈ Pattern.Parser.classLetters →
      Simple n ('\\' :: c :: rest) (Pattern.Parser.classEscape n.alphabet c) rest
  | escape {c : Char} (rest : List Char) :
      c ∉ Pattern.Parser.classLetters → Simple n ('\\' :: c :: rest) (.char c) rest
  | plain {c : Char} (rest : List Char) :
      ¬ Special n.extensions c → Simple n (c :: rest) (.char c) rest

end

end PatternAutomata.Grammar

namespace PatternAutomata.Pattern

/-- A whole text stands for a pattern; the empty one for the empty word. -/
inductive Reads (n : Notation) : List Char → Pattern → Prop where
  | empty : Reads n [] (.literal [])
  | text {s : List Char} {p : Pattern} :
      s ≠ [] → Grammar.Alternatives n s p [] → Reads n s p

end PatternAutomata.Pattern
