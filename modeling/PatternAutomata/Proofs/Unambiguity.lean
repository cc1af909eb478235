import PatternAutomata.Proofs.Parsing

/-!
# The grammar has one reading

The rules of the grammar say what a text may stand for; nothing in them says that it
cannot stand for two things. A step of the parser has one outcome, though, and at every
place and on every level it gives what the rules allow there. So a text has at most one
beginning that stands for a pattern, and this pattern is unique.

## Main results

* `Grammar.Alternatives.unique`: one pattern and one rest.
* `Pattern.parse_eq_ok_iff_derives`: reading is the grammar, and the grammar has one
  reading.
-/

namespace PatternAutomata

/-- A step of a parser has one outcome. -/
theorem Result.Gives.unique {α : Type} {c : Cursor} {r : Result α c} {a b : α}
    {s t : List Char} (h : r.Gives a s) (h' : r.Gives b t) : a = b ∧ s = t := by
  obtain ⟨p, hp, rfl, rfl⟩ := h
  rw [hp] at h'
  obtain ⟨hvalue, hrest⟩ := gives_ok_iff.1 h'
  exact ⟨hvalue, hrest⟩

/-- A step of a parser uses up a part of the text. -/
theorem Result.Gives.length_lt {α : Type} {c : Cursor} {r : Result α c} {a : α}
    {s : List Char} (h : r.Gives a s) : s.length < c.chars.length := by
  obtain ⟨p, -, -, rfl⟩ := h
  exact p.progress

namespace Grammar

variable {n : Notation} {s rest rest' : List Char} {p q : Pattern}

/-- The parser at the beginning of a text gives what the rules allow there. -/
theorem Alternatives.gives (h : Alternatives n s p rest) :
    (Pattern.Parser.alternatives n (Cursor.ofText s)).Gives p rest :=
  (Pattern.Parser.alternatives_gives_iff n (Cursor.ofText s) p rest).2 h

theorem Alternatives.unique (h : Alternatives n s p rest) (h' : Alternatives n s q rest') :
    p = q ∧ rest = rest' := h.gives.unique h'.gives

theorem Alternatives.length_lt (h : Alternatives n s p rest) : rest.length < s.length :=
  h.gives.length_lt

/-- No pattern stands for the empty text. -/
theorem not_alternatives_nil : ¬ Alternatives n [] p rest := by
  intro h
  exact Nat.not_lt_zero _ h.length_lt

end Grammar

namespace Pattern

open Grammar

variable {n : Notation} {s : List Char} {p : Pattern}

theorem reads_iff : Reads n s p ↔ (s = [] ∧ p = .literal []) ∨ Alternatives n s p [] := by
  constructor
  · intro h
    cases h with
    | empty => exact Or.inl ⟨rfl, rfl⟩
    | text _ hderived => exact Or.inr hderived
  · intro h
    rcases h with ⟨rfl, rfl⟩ | hderived
    · exact .empty
    · refine .text ?_ hderived
      rintro rfl
      exact not_alternatives_nil hderived

/-- A text is read as a pattern if and only if it is empty and the pattern is the empty
literal, or the grammar derives the whole text with this pattern; and it derives at most
one pattern from a text, with one rest. -/
theorem parse_eq_ok_iff_derives (n : Notation) (s : List Char) :
    (∀ p, parse n s = .ok p ↔ (s = [] ∧ p = .literal []) ∨ Alternatives n s p []) ∧
    ∀ p q rest rest', Alternatives n s p rest → Alternatives n s q rest' →
      p = q ∧ rest = rest' := by
  refine ⟨?_, ?_⟩
  · intro p
    rw [parse_eq_ok_iff, reads_iff]
  · intro p q rest rest' h h'
    exact h.unique h'

/-- A text with all levels of the notation. A group has flags and nothing else, the closing
parenthesis after the bar stands for itself, the class ends with a dash, and the bounds of
the numerals are in the wrong order. -/
def allLevels : List Char := "(?i:)*|)[^\\]-]+~<12-7>&a\"*\"b".toList

/-- What the text with all levels stands for. -/
def allLevelsRead : Pattern :=
  .union (.star (.literal []))
    (.inter
      (.concat (.char ')')
        (.concat (.atLeast 1 (exclude (.union (.char ']') (.char '-'))))
          (.complement (.numerals 7 12 0))))
      (.literal ['a', '*', 'b']))

theorem parse_allLevels : parse ⟨.all, none⟩ allLevels = .ok allLevelsRead := by
  decide +kernel

theorem derives_allLevels :
    Alternatives ⟨.all, none⟩ allLevels allLevelsRead [] ∧
    ∀ q rest, Alternatives ⟨.all, none⟩ allLevels q rest → q = allLevelsRead ∧ rest = [] := by
  obtain ⟨hread, hunique⟩ := parse_eq_ok_iff_derives ⟨.all, none⟩ allLevels
  have hderived : Alternatives ⟨.all, none⟩ allLevels allLevelsRead [] := by
    rcases (hread allLevelsRead).1 parse_allLevels with ⟨hnil, -⟩ | hderived
    · exact absurd hnil (by decide)
    · exact hderived
  refine ⟨hderived, ?_⟩
  intro q rest h
  exact hunique q allLevelsRead rest [] h hderived

end Pattern

end PatternAutomata
