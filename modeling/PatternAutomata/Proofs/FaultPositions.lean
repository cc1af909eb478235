import PatternAutomata.Proofs.Parsing
import PatternAutomata.Proofs.Trees

/-!
# Where a text is at fault

The position of an error is the number of characters before a place in the text, and the
place has to do with the fault. A missing bracket, parenthesis or quote is missed at the end
of the text, since every level of the notation goes on up to the character that closes it.
For the same reason nothing but a closing parenthesis can be left over after a pattern. What
is wrong with a number, a repetition or the content of angle brackets is reported at the
beginning of the number, at the opening brace or at the closing angle bracket.

The invariant is that a cursor is a place in the text (`Cursor.In`). Every step of the parser
keeps it, and an error is reported at the cursor of some step (`Result.Located`). At which
characters a level can stop is read off the grammar.

## Main results

* `Alternatives.stops`: what can follow the loosest level.
* `located_alternatives`: the levels of the notation.
* `Pattern.parse_error_fits`: the errors of a whole text.
-/

namespace PatternAutomata

/-! ## Faults that fit their places -/

/-- A maximal run of digits begins at the position, after an opening brace or a comma, and
its number does not fit into 32 bits. -/
def OverflowAt (text : List Char) (position : Nat) : Prop :=
  ∃ before x digits after, text = before ++ x :: (digits ++ after) ∧
    before.length + 1 = position ∧ (x = '{' ∨ x = ',') ∧ digits ≠ [] ∧
    (∀ c ∈ digits, CharClass.isDigit c = true) ∧ Grammar.NoDigit after ∧
    Cursor.integerLimit ≤ Decimal.read digits

/-- What the text has at the position of a fault. -/
def SyntaxFault.Fits (text : List Char) (position : Nat) : SyntaxFault → Prop
  | .trailingInput => text[position]? = some ')'
  | .expected c =>
    (c ∈ [')', ']', '>', '"'] ∧ position = text.length) ∨
      (c = '}' ∧ text[position]? ≠ some '}')
  | .unexpectedEnd => position = text.length
  | .integerExpected =>
    0 < position ∧ text[position - 1]? = some '{' ∧
      ∀ c ∈ text[position]?, CharClass.isDigit c = false
  | .integerOverflow => OverflowAt text position ∨ text[position]? = some '>'
  | .numeralsExpected | .illegalName => text[position]? = some '>'
  | .boundsOutOfOrder min max =>
    text[position]? = some '{' ∧ max < min ∧ min < Cursor.integerLimit

/-- The position of an error is in the text, and the text has there what the fault says. -/
structure SyntaxError.Fits (text : List Char) (e : SyntaxError) : Prop where
  position_le : e.position ≤ text.length
  fault : e.fault.Fits text e.position

/-! ## Cursors in a text -/

variable {α β : Type} {text : List Char} {c d : Cursor} {x : Char}

namespace Cursor

/-- The cursor is a place in the text. -/
def In (c : Cursor) (text : List Char) : Prop :=
  ∃ before, text = before ++ c.chars ∧ before.length = c.position

/-- The cursor is the place in the text after a character. -/
def After (c : Cursor) (x : Char) (text : List Char) : Prop :=
  ∃ before, text = before ++ x :: c.chars ∧ before.length + 1 = c.position

theorem in_ofText (text : List Char) : (ofText text).In text := ⟨[], rfl, rfl⟩

theorem After.toIn (h : c.After x text) : c.In text := by
  obtain ⟨before, htext, hposition⟩ := h
  refine ⟨before ++ [x], ?_, ?_⟩
  · rw [List.append_assoc, htext]
    rfl
  · rw [List.length_append, ← hposition]
    rfl

theorem After.getElem? (h : c.After x text) :
    0 < c.position ∧ text[c.position - 1]? = some x := by
  obtain ⟨before, rfl, hposition⟩ := h
  refine ⟨by omega, ?_⟩
  rw [List.getElem?_append_right (by omega), show c.position - 1 - before.length = 0 by omega]
  rfl

theorem In.position_le (h : c.In text) : c.position ≤ text.length := by
  obtain ⟨before, rfl, hposition⟩ := h
  rw [List.length_append]
  omega

theorem In.getElem? (h : c.In text) : text[c.position]? = c.chars.head? := by
  obtain ⟨before, rfl, hposition⟩ := h
  rw [← hposition, List.getElem?_append_right (Nat.le_refl _), Nat.sub_self,
    List.head?_eq_getElem?]

theorem In.position_eq (h : c.In text) (hend : c.chars = []) : c.position = text.length := by
  obtain ⟨before, rfl, hposition⟩ := h
  rw [hend, List.append_nil, hposition]

theorem In.error (h : c.In text) {fault : SyntaxFault} (hfault : fault.Fits text c.position) :
    (c.error fault).Fits text := ⟨h.position_le, hfault⟩

/-! ## Single steps -/

theorem In.next? (h : c.In text) {step : Parsed Char c} (hstep : c.next? = some step) :
    step.rest.After step.value text := by
  obtain ⟨chars, position⟩ := c
  obtain ⟨before, htext, hposition⟩ := h
  cases chars with
  | nil => cases hstep
  | cons y chars =>
      cases hstep
      exact ⟨before, htext, congrArg (· + 1) hposition⟩

theorem In.skip? (h : c.In text) {step : Parsed Unit c} (hstep : c.skip? x = some step) :
    step.rest.After x text := by
  obtain ⟨chars, position⟩ := c
  obtain ⟨before, htext, hposition⟩ := h
  cases chars with
  | nil => cases hstep
  | cons y chars =>
      by_cases hy : y = x
      · subst hy
        simp only [Cursor.skip?, Cursor.next?, if_true, Option.some.injEq] at hstep
        subst hstep
        exact ⟨before, htext, congrArg (· + 1) hposition⟩
      · simp [Cursor.skip?, Cursor.next?, hy] at hstep

theorem In.skipAny (h : c.In text) (x : Char) : (c.skipAny x).val.In text := by
  rw [Cursor.skipAny]
  cases hskip : c.skip? x with
  | none => exact h
  | some step => exact (h.skip? hskip).toIn

theorem In.dropWhile (h : c.In text) (test : Char → Bool) : (c.dropWhile test).In text := by
  obtain ⟨before, rfl, hposition⟩ := h
  refine ⟨before ++ c.taken test, ?_, ?_⟩
  · rw [List.append_assoc, ← (c.run_spec test).1]
  · rw [List.length_append, hposition]
    rfl

end Cursor

/-! ## Located outcomes -/

/-- A step of the parser ends at a place in the text, or with an error that fits the text. -/
def Result.Located (text : List Char) : Result α c → Prop
  | .ok p => p.rest.In text
  | .error e => e.Fits text

namespace Result

theorem Located.bind {x : Result α d} {f : Parsed α d → Result β c} (h : x.Located text)
    (hnext : ∀ a rest hrest, x = .ok ⟨a, rest, hrest⟩ → rest.In text →
      (f ⟨a, rest, hrest⟩).Located text) :
    Located text (x >>= f) := by
  cases x with
  | error e => exact h
  | ok p => exact hnext p.value p.rest p.progress rfl h

theorem Located.within {x : Result α d} {f : α → β} (h : x.Located text)
    (hlt : d.chars.length < c.chars.length) :
    Located text (c := c) (x >>= fun a => pure (a.within hlt f)) :=
  h.bind fun _ _ _ _ hin => hin

theorem Located.map_within {x : Result α d} {f : α → β} (h : x.Located text)
    (hlt : d.chars.length < c.chars.length) :
    Located text (c := c) (x.map (·.within hlt f)) := by
  cases x with
  | error e => exact h
  | ok p => exact h

end Result

namespace Cursor

/-- A mark that closes a form is missed at the end of the text, if only the mark can follow
otherwise. -/
theorem In.expect_close (h : c.In text) (hx : x ∈ [')', ']', '>', '"'])
    (hstop : ∀ y ∈ c.chars.head?, y = x) : (c.expect x).Located text := by
  rw [expect]
  rcases c.skip?_cases x with ⟨step, hskip, -⟩ | ⟨hskip, hhead⟩
  · rw [hskip]
    exact (h.skip? hskip).toIn
  · rw [hskip]
    refine h.error (Or.inl ⟨hx, h.position_eq ?_⟩)
    cases hchars : c.chars with
    | nil => rfl
    | cons y chars =>
        rw [hchars] at hstop hhead
        exact absurd (congrArg some (hstop y rfl)) hhead

theorem In.expect_brace (h : c.In text) : (c.expect '}').Located text := by
  rw [expect]
  rcases c.skip?_cases '}' with ⟨step, hskip, -⟩ | ⟨hskip, hhead⟩
  · rw [hskip]
    exact (h.skip? hskip).toIn
  · rw [hskip]
    refine h.error (Or.inr ⟨rfl, ?_⟩)
    rwa [h.getElem?]

/-- The run of characters up to a closing mark. -/
theorem In.expect_dropWhile (h : c.In text) (hx : x ∈ [')', ']', '>', '"']) :
    ((c.dropWhile (· ≠ x)).expect x).Located text := by
  refine (h.dropWhile _).expect_close hx fun y hy => ?_
  simpa using (c.run_spec (· ≠ x)).2.2 y hy

/-- A number after an opening brace, or one after a comma that has a digit at least. -/
theorem After.integer (h : c.After x text)
    (hx : x = '{' ∨ (x = ',' ∧ c.peek?.any CharClass.isDigit = true)) :
    c.integer.Located text := by
  obtain ⟨hchars, hdigits, hstop⟩ := c.run_spec CharClass.isDigit
  unfold Cursor.integer
  dsimp only
  split
  · next hlt =>
    split
    · exact h.toIn.dropWhile _
    · next hlimit =>
      refine h.toIn.error (Or.inl ?_)
      obtain ⟨before, htext, hposition⟩ := h
      rw [hchars] at htext
      refine ⟨before, x, _, _, htext, hposition, hx.imp_right And.left, ?_, hdigits, hstop,
        Nat.le_of_not_lt hlimit⟩
      intro hnil
      rw [hnil, List.nil_append] at hchars
      rw [← hchars] at hlt
      exact Nat.lt_irrefl _ hlt
  · next hlt =>
    have hnone : ∀ y ∈ c.chars.head?, CharClass.isDigit y = false := by
      cases htaken : c.taken CharClass.isDigit with
      | nil =>
          rw [htaken, List.nil_append] at hchars
          rwa [← hchars] at hstop
      | cons y digits =>
          refine absurd ?_ hlt
          rw [htaken] at hchars
          rw [hchars, List.length_append, List.length_cons]
          omega
    rcases hx with rfl | ⟨-, hdigit⟩
    · refine h.toIn.error ⟨h.getElem?.1, h.getElem?.2, ?_⟩
      rwa [h.toIn.getElem?]
    · obtain ⟨y, hy, hdigit⟩ := (Option.any_eq_true ..).1 hdigit
      rw [hnone y hy] at hdigit
      cases hdigit

end Cursor

/-! ## Where the levels stop -/

namespace Grammar

variable {n : Notation}

mutual

theorem Sequence.stops {s rest : List Char} {p : Pattern} :
    Sequence n s p rest → ∀ x ∈ rest.head?, Ends n.extensions x
  | .last _ hends => hends
  | .more _ _ h => h.stops

theorem Conjunction.stops {s rest : List Char} {p : Pattern} :
    Conjunction n s p rest → ∀ x ∈ rest.head?, x = ')' ∨ x = '|'
  | .last h hmark => fun x hx => by
    rcases h.stops x hx with rfl | rfl | ⟨rfl, hon⟩
    · exact Or.inl rfl
    · exact Or.inr rfl
    · exact absurd hx (hmark hon)
  | .more _ _ h => h.stops

/-- What follows a pattern is a closing parenthesis, if anything. -/
theorem Alternatives.stops {s rest : List Char} {p : Pattern} :
    Alternatives n s p rest → ∀ x ∈ rest.head?, x = ')'
  | .last h hbar => fun x hx => by
    rcases h.stops x hx with rfl | rfl
    · rfl
    · exact absurd hx hbar
  | .more _ h => h.stops

end

end Grammar

namespace Pattern

open Grammar

namespace Parser

/-! ## Classes, quotes, angle brackets and escapes -/

theorem located_classMember (h : c.In text) : (classMember c).Located text := by
  have hin := h.skipAny '\\'
  unfold classMember
  revert hin
  rcases c.skipAny '\\' with ⟨start, hle⟩
  intro hin
  dsimp only
  cases hnext : start.next? with
  | some member => exact (hin.next? hnext).toIn
  | none => exact hin.error (hin.position_eq (Cursor.next?_eq_none_iff.1 hnext))

theorem located_classItem (h : c.In text) : (classItem c).Located text := by
  unfold classItem
  refine (located_classMember h).bind fun lo rest hrest _ hin => ?_
  rcases rest.skip?_cases '-' with ⟨⟨⟨⟩, dash, hdash⟩, hskip, -⟩ | ⟨hskip, -⟩
  · have hdashIn := (hin.skip? hskip).toIn
    simp only [hskip]
    split
    · exact hdashIn
    · exact (located_classMember hdashIn).within _
  · simp only [hskip]
    exact hin

theorem located_moreItems {origin : Cursor} (items : Pattern) (c : Cursor)
    (hlt : c.chars.length < origin.chars.length) (h : c.In text) :
    (moreItems items c hlt).Located text := by
  rw [moreItems]
  split
  · exact h
  · refine (located_classItem h).bind fun item rest hrest _ hin => ?_
    exact located_moreItems _ rest _ hin
termination_by c.chars.length

/-- The items of a class stop at the closing bracket or at the end. -/
theorem moreItems_stops {origin : Cursor} (items : Pattern) (c : Cursor)
    (hlt : c.chars.length < origin.chars.length) {p : Parsed Pattern origin}
    (h : moreItems items c hlt = .ok p) : ∀ x ∈ p.rest.chars.head?, x = ']' := by
  rw [moreItems] at h
  split at h
  · next hstop =>
    cases h
    intro x hx
    rcases hstop with hstop | hstop
    · exact absurd (hx.symm.trans hstop) (Option.some_ne_none x)
    · exact Option.some.inj (hx.symm.trans hstop)
  · obtain ⟨⟨item, rest, hrest⟩, -, hmore⟩ := gives_bind_iff.1 (gives_of_eq h)
    obtain ⟨q, hq, -, hqrest⟩ := hmore
    rw [← hqrest]
    exact moreItems_stops _ rest _ hq
termination_by c.chars.length

theorem located_classItems (h : c.In text) : (classItems c).Located text := by
  unfold classItems
  exact (located_classItem h).bind fun item rest hrest _ hin => located_moreItems _ rest _ hin

theorem classItems_stops {p : Parsed Pattern c} (h : classItems c = .ok p) :
    ∀ x ∈ p.rest.chars.head?, x = ']' := by
  unfold classItems at h
  obtain ⟨item, -, hmore⟩ := gives_bind_iff.1 (gives_of_eq h)
  obtain ⟨q, hq, -, hqrest⟩ := hmore
  rw [← hqrest]
  exact moreItems_stops _ _ _ hq

theorem located_bracketed (h : c.In text) : (bracketed c).Located text := by
  have hin := h.skipAny '^'
  unfold bracketed
  revert hin
  rcases c.skipAny '^' with ⟨start, hle⟩
  intro hin
  dsimp only
  refine (located_classItems hin).bind fun items rest hrest heq hitems => ?_
  have hstops := classItems_stops heq
  exact (hitems.expect_close (by decide) hstops).bind fun _ close hclose _ hin => hin

theorem located_quoted (h : c.In text) : (quoted c).Located text := by
  unfold quoted
  exact (h.expect_dropWhile (by decide)).bind fun _ rest hrest _ hin => hin

theorem fault_of_numeralRange {lo hi : List Char} {fault : SyntaxFault}
    (h : numeralRange lo hi = .error fault) :
    fault = .numeralsExpected ∨ fault = .integerOverflow := by
  unfold numeralRange at h
  split at h
  · cases h
    exact Or.inl rfl
  · dsimp only at h
    split at h
    · cases h
      exact Or.inr rfl
    · cases h

/-- What is wrong with the content of angle brackets fits at the closing one. -/
theorem fits_of_angleContent {e : Extensions} {content : List Char} {fault : SyntaxFault}
    {position : Nat} (h : angleContent e content = .error fault)
    (hclose : text[position]? = some '>') : fault.Fits text position := by
  unfold angleContent at h
  dsimp only at h
  split at h
  · split at h
    · cases h
    · cases h
      exact hclose
  · split at h
    · rcases fault_of_numeralRange h with rfl | rfl
      · exact hclose
      · exact Or.inr hclose
    · cases h
      exact hclose

theorem located_angled (e : Extensions) (h : c.In text) : (angled e c).Located text := by
  unfold angled
  dsimp only
  refine (h.expect_dropWhile (by decide)).bind fun _ rest hrest hclose hin => ?_
  cases hcontent : angleContent e (c.taken (· ≠ '>')) with
  | ok p => exact hin
  | error fault =>
      refine (h.dropWhile _).error (fits_of_angleContent hcontent ?_)
      rw [(h.dropWhile _).getElem?, Cursor.chars_of_expect hclose]
      rfl

theorem located_escaped (alphabet : Option Alphabet) (h : c.In text) :
    (escaped alphabet c).Located text := by
  unfold escaped
  cases hnext : c.next? with
  | some step => exact (h.next? hnext).toIn
  | none => exact h.error (h.position_eq (Cursor.next?_eq_none_iff.1 hnext))

theorem in_skipFlags (h : c.In text) : (skipFlags c).val.In text := by
  rw [skipFlags]
  cases hskip : c.skip? '?' with
  | none => exact h
  | some step => exact ((h.skip? hskip).toIn.dropWhile _).skipAny ':'

/-! ## Quantifiers -/

theorem located_repetition (h : c.After '{' text) : (repetition c).Located text := by
  unfold repetition
  refine (h.integer (Or.inl rfl)).bind fun min rest hrest _ hin => ?_
  rcases rest.skip?_cases ',' with ⟨⟨⟨⟩, after, hafter⟩, hskip, -⟩ | ⟨hskip, -⟩
  · simp only [hskip]
    have hcomma := hin.skip? hskip
    split
    · next hdigit =>
      refine (hcomma.integer (Or.inr ⟨rfl, hdigit⟩)).bind fun max rest hrest _ hin => ?_
      exact hin.expect_brace.within _
    · exact hcomma.toIn.expect_brace.within _
  · simp only [hskip]
    exact hin.expect_brace.within _

/-- A mark that has to follow changes nothing about what was read before it. -/
theorem eq_of_gives_within {x : Result Unit d} {f : Unit → β} {b : β} {rest : List Char}
    {hlt : d.chars.length < c.chars.length}
    (h : Result.Gives (x >>= fun r => (pure (r.within hlt f) : Result β c)) b rest) :
    b = f () := by
  obtain ⟨close, -, hclose⟩ := gives_bind_iff.1 h
  exact (gives_ok_iff.1 hclose).1.symm

/-- The lower bound of a repetition is a number that fits. -/
theorem lt_of_repetition {step : Parsed (Nat × Option Nat) c} (h : repetition c = .ok step) :
    step.value.1 < Cursor.integerLimit := by
  have hgives := gives_of_eq h
  unfold repetition at hgives
  obtain ⟨⟨min, rest, hrest⟩, hmin, hgives⟩ := gives_bind_iff.1 hgives
  have hlt : min < Cursor.integerLimit :=
    lt_of_integer (Cursor.integer_gives_iff.1 (gives_of_eq hmin))
  suffices hvalue : step.value.1 = min by rwa [hvalue]
  rcases rest.skip?_cases ',' with ⟨⟨⟨⟩, after, hafter⟩, hskip, -⟩ | ⟨hskip, -⟩
  · simp only [hskip] at hgives
    split at hgives
    · obtain ⟨max, -, hgives⟩ := gives_bind_iff.1 hgives
      exact congrArg Prod.fst (eq_of_gives_within hgives)
    · exact congrArg Prod.fst (eq_of_gives_within hgives)
  · simp only [hskip] at hgives
    exact congrArg Prod.fst (eq_of_gives_within hgives)

theorem located_quantifiers {origin : Cursor} (body : Pattern) (c : Cursor)
    (hlt : c.chars.length < origin.chars.length) (h : c.In text) :
    (quantifiers body c hlt).Located text := by
  rw [quantifiers]
  split
  · next rest _ hnext => exact located_quantifiers _ rest _ (h.next? hnext).toIn
  · next rest _ hnext => exact located_quantifiers _ rest _ (h.next? hnext).toIn
  · next rest _ hnext => exact located_quantifiers _ rest _ (h.next? hnext).toIn
  · next rest hrest hnext =>
    have hopen : rest.After '{' text := h.next? hnext
    refine (located_repetition hopen).bind fun bounds after hafter heq hin => ?_
    obtain ⟨min, max?⟩ := bounds
    cases max? with
    | none => exact located_quantifiers _ after _ hin
    | some max =>
        by_cases horder : max < min
        · simp only [if_pos horder]
          refine h.error ⟨?_, horder, lt_of_repetition heq⟩
          rw [h.getElem?, Cursor.chars_of_next? hnext]
          rfl
        · simp only [if_neg horder]
          exact located_quantifiers _ after _ hin
  · exact h
termination_by c.chars.length
decreasing_by all_goals omega

/-! ## The levels -/

section Levels

variable (n : Notation)

mutual

theorem located_alternatives (c : Cursor) (h : c.In text) :
    (alternatives n c).Located text := by
  rw [alternatives]
  refine (located_conjunction c h).bind fun first after hafter _ hin => ?_
  rcases after.skip?_cases '|' with ⟨⟨⟨⟩, bar, hbar⟩, hskip, -⟩ | ⟨hskip, -⟩
  · simp only [hskip]
    have hlt : bar.chars.length < c.chars.length := Nat.lt_trans hbar hafter
    exact (located_alternatives bar (hin.skip? hskip).toIn).within hlt
  · simp only [hskip]
    exact hin
termination_by 8 * c.chars.length + 6
decreasing_by all_goals omega

theorem located_conjunction (c : Cursor) (h : c.In text) :
    (conjunction n c).Located text := by
  rw [conjunction]
  refine (located_sequence c h).bind fun first after hafter _ hin => ?_
  by_cases hon : n.extensions.intersection = true
  · rcases after.skip?_cases '&' with ⟨⟨⟨⟩, mark, hmark⟩, hskip, -⟩ | ⟨hskip, -⟩
    · simp only [if_pos hon, hskip]
      have hlt : mark.chars.length < c.chars.length := Nat.lt_trans hmark hafter
      exact (located_conjunction mark (hin.skip? hskip).toIn).within hlt
    · simp only [if_pos hon, hskip]
      exact hin
  · simp only [if_neg hon]
    exact hin
termination_by 8 * c.chars.length + 5
decreasing_by all_goals omega

theorem located_sequence (c : Cursor) (h : c.In text) : (sequence n c).Located text := by
  rw [sequence]
  refine (located_quantified c h).bind fun first after hafter _ hin => ?_
  by_cases hstop : after.peek?.all (endsSequence n.extensions) = true
  · simp only [if_pos hstop]
    exact hin
  · simp only [if_neg hstop]
    exact (located_sequence after hin).within hafter
termination_by 8 * c.chars.length + 4
decreasing_by all_goals omega

theorem located_quantified (c : Cursor) (h : c.In text) : (quantified n c).Located text := by
  rw [quantified]
  exact (located_negated c h).bind fun body after hafter _ hin =>
    located_quantifiers body after hafter hin
termination_by 8 * c.chars.length + 3

theorem located_negated (c : Cursor) (h : c.In text) : (negated n c).Located text := by
  rw [negated]
  by_cases hon : n.extensions.complement = true
  · rcases c.skip?_cases '~' with ⟨⟨⟨⟩, after, hafter⟩, hskip, -⟩ | ⟨hskip, -⟩
    · simp only [if_pos hon, hskip]
      exact (located_negated after (h.skip? hskip).toIn).within hafter
    · simp only [if_pos hon, hskip]
      exact located_simple c h
  · simp only [if_neg hon]
    exact located_simple c h
termination_by 8 * c.chars.length + 2
decreasing_by all_goals omega

theorem located_simple (c : Cursor) (h : c.In text) : (simple n c).Located text := by
  rw [simple]
  cases hnext : c.next? with
  | none => exact h.error (h.position_eq (Cursor.next?_eq_none_iff.1 hnext))
  | some step =>
      obtain ⟨x, after, hafter⟩ := step
      have hin : after.In text := (h.next? hnext).toIn
      dsimp only
      split_ifs
      · exact (located_bracketed hin).map_within hafter
      · exact hin
      · exact hin
      · exact hin
      · exact (located_quoted hin).map_within hafter
      · exact (located_group after hin).within hafter
      · exact (located_angled _ hin).map_within hafter
      · exact (located_escaped _ hin).map_within hafter
      · exact hin
termination_by 8 * c.chars.length + 1
decreasing_by all_goals omega

theorem located_group (c : Cursor) (h : c.In text) : (group n c).Located text := by
  rw [group]
  have hin := in_skipFlags h
  revert hin
  rcases skipFlags c with ⟨start, hle⟩
  intro hin
  rcases start.skip?_cases ')' with ⟨⟨⟨⟩, close, hclose⟩, hskip, -⟩ | ⟨hskip, -⟩
  · simp only [hskip]
    exact (hin.skip? hskip).toIn
  · simp only [hskip]
    refine (located_alternatives start hin).bind fun body after hafter heq hafterIn => ?_
    have hstops := ((alternatives_gives_iff n start _ _).1 (gives_of_eq heq)).stops
    exact (hafterIn.expect_close (by decide) hstops).within _
termination_by 8 * c.chars.length + 7
decreasing_by all_goals omega

end

end Levels

end Parser

/-- The position of an error is in the text, and the text has there what the fault says: a
closing parenthesis that is too much, the end where a closing mark is missing, the number or
the repetition that is wrong, or the closing angle bracket. -/
theorem parse_error_fits (n : Notation) (s : List Char) (e : SyntaxError)
    (h : parse n s = .error e) : e.Fits s := by
  have hlocated := Parser.located_alternatives n _ (Cursor.in_ofText s)
  unfold parse at h
  split at h
  · cases h
  cases heq : Parser.alternatives n (Cursor.ofText s) with
  | error fault =>
      rw [heq] at h hlocated
      cases h
      exact hlocated
  | ok p =>
      obtain ⟨p, rest, hrest⟩ := p
      rw [heq] at h hlocated
      have hin : rest.In s := hlocated
      have hstops := ((Parser.alternatives_gives_iff n _ _ _).1 (gives_of_eq heq)).stops
      cases hchars : rest.chars with
      | nil => simp [bind, Except.bind, hchars, pure, Except.pure] at h
      | cons x after =>
          obtain rfl : x = ')' := hstops x (by rw [hchars]; rfl)
          have herror : e = rest.error .trailingInput := by
            simpa [bind, Except.bind, hchars, eq_comm] using h
          rw [herror]
          refine hin.error ?_
          show s[rest.position]? = some ')'
          rw [hin.getElem?, hchars]
          rfl

/-- A repetition with its bounds in the wrong order, in a group under a complement. -/
def swappedBounds : List Char := "x~(é|[^a-]\x7b12,3\x7d".toList

theorem parse_error_fits_swappedBounds :
    parse ⟨.all, none⟩ swappedBounds = .error ⟨10, .boundsOutOfOrder 12 3⟩ ∧
      SyntaxError.Fits swappedBounds ⟨10, .boundsOutOfOrder 12 3⟩ := by
  have h : parse ⟨.all, none⟩ swappedBounds = .error ⟨10, .boundsOutOfOrder 12 3⟩ := by
    decide +kernel
  exact ⟨h, parse_error_fits _ _ _ h⟩

end Pattern

end PatternAutomata
