import PatternAutomata.Proofs.Forms

/-!
# The parser and the grammar

The levels of the notation refer to each other, in the parser as in the grammar. What a
level of the parser gives is what the grammar has at that place: the statements for all
levels are proved together, by the recursion of the parser, which goes on at a later place
or at a tighter level.

## Main results

* `alternatives_gives_iff`: the loosest level.
* `Pattern.parse_eq_ok_iff`: a text is read as a pattern if it stands for the pattern.
-/

namespace PatternAutomata.Pattern

open Grammar

namespace Parser

variable {n : Notation}

@[simp] theorem endsSequence_iff {e : Extensions} {x : Char} :
    endsSequence e x = true ↔ Ends e x := by
  simp only [endsSequence, Ends, Bool.or_eq_true, Bool.and_eq_true, beq_iff_eq, or_assoc]

theorem all_endsSequence_iff {e : Extensions} {c : Cursor} :
    c.peek?.all (endsSequence e) = true ↔ ∀ x ∈ c.chars.head?, Ends e x := by
  cases h : c.chars.head? with
  | none => simp [Cursor.peek?, h]
  | some x => simp [Cursor.peek?, h]

theorem not_all_endsSequence_iff {e : Extensions} {c : Cursor} :
    ¬ c.peek?.all (endsSequence e) = true ↔ ∃ x t, c.chars = x :: t ∧ ¬ Ends e x := by
  rw [all_endsSequence_iff]
  cases c.chars with
  | nil => simp
  | cons x t => simp

/-! ## The first character of a simple form -/

section Simple

variable {x : Char} {s rest : List Char} {p : Pattern}

theorem simple_bracket_iff : Simple n ('[' :: s) p rest ↔
    (s.head? ≠ some '^' ∧ ClassBody s p rest) ∨
      ∃ t q, s = '^' :: t ∧ ClassBody t q rest ∧ p = exclude q := by
  constructor
  · intro h
    cases h with
    | bracket hhead hbody => exact Or.inl ⟨hhead, hbody⟩
    | negatedBracket hbody => exact Or.inr ⟨_, _, rfl, hbody, rfl⟩
    | plain _ hplain => exact absurd (Or.inl (by decide)) hplain
  · intro h
    rcases h with ⟨hhead, hbody⟩ | ⟨t, q, rfl, hbody, rfl⟩
    · exact .bracket hhead hbody
    · exact .negatedBracket hbody

theorem simple_quote_iff : Simple n ('"' :: s) p rest ↔
    ∃ text, '"' ∉ text ∧ s = text ++ '"' :: rest ∧ p = .literal text := by
  constructor
  · intro h
    cases h with
    | quoted _ hmem => exact ⟨_, hmem, rfl, rfl⟩
    | plain _ hplain => exact absurd (Or.inl (by decide)) hplain
  · intro h
    obtain ⟨text, hmem, rfl, rfl⟩ := h
    exact .quoted rest hmem

theorem simple_angle_iff (hon : n.extensions.reference = true ∨ n.extensions.numerals = true) :
    Simple n ('<' :: s) p rest ↔
      ∃ text, '>' ∉ text ∧ s = text ++ '>' :: rest ∧ Angle n.extensions text p := by
  constructor
  · intro h
    cases h with
    | angle _ hmem hangle => exact ⟨_, hmem, rfl, hangle⟩
    | plain _ hplain => exact absurd (Or.inr (Or.inr (Or.inr (Or.inl ⟨rfl, hon⟩)))) hplain
  · intro h
    obtain ⟨text, hmem, rfl, hangle⟩ := h
    exact .angle rest hmem hangle

theorem simple_escape_iff : Simple n ('\\' :: s) p rest ↔
    ∃ x, s = x :: rest ∧
      (if x ∈ classLetters then classEscape n.alphabet x else .char x) = p := by
  constructor
  · intro h
    cases h with
    | classEscape _ hletter => exact ⟨_, rfl, if_pos hletter⟩
    | escape _ hletter => exact ⟨_, rfl, if_neg hletter⟩
    | plain _ hplain => exact absurd (Or.inl (by decide)) hplain
  · intro h
    obtain ⟨x, rfl, rfl⟩ := h
    by_cases hletter : x ∈ classLetters
    · rw [if_pos hletter]
      exact .classEscape rest hletter
    · rw [if_neg hletter]
      exact .escape rest hletter

theorem simple_group_iff : Simple n ('(' :: s) p rest ↔
    ∃ t, GroupStart s t ∧ ((t = ')' :: rest ∧ p = .literal []) ∨
      (t.head? ≠ some ')' ∧ Alternatives n t p (')' :: rest))) := by
  constructor
  · intro h
    cases h with
    | emptyGroup hstart => exact ⟨_, hstart, Or.inl ⟨rfl, rfl⟩⟩
    | group hstart hhead hbody => exact ⟨_, hstart, Or.inr ⟨hhead, hbody⟩⟩
    | plain _ hplain => exact absurd (Or.inl (by decide)) hplain
  · intro h
    obtain ⟨t, hstart, ⟨rfl, rfl⟩ | ⟨hhead, hbody⟩⟩ := h
    · exact .emptyGroup hstart
    · exact .group hstart hhead hbody

theorem simple_anyChar_iff : Simple n ('.' :: s) p rest ↔ .anyChar = p ∧ s = rest := by
  constructor
  · intro h
    cases h with
    | anyChar => exact ⟨rfl, rfl⟩
    | plain _ hplain => exact absurd (Or.inl (by decide)) hplain
  · intro h
    obtain ⟨rfl, rfl⟩ := h
    exact .anyChar s

theorem simple_empty_iff (hon : n.extensions.empty = true) :
    Simple n ('#' :: s) p rest ↔ .empty = p ∧ s = rest := by
  constructor
  · intro h
    cases h with
    | empty => exact ⟨rfl, rfl⟩
    | plain _ hplain => exact absurd (Or.inr (Or.inl ⟨rfl, hon⟩)) hplain
  · intro h
    obtain ⟨rfl, rfl⟩ := h
    exact .empty s hon

theorem simple_anyWord_iff (hon : n.extensions.anyWord = true) :
    Simple n ('@' :: s) p rest ↔ .anyWord = p ∧ s = rest := by
  constructor
  · intro h
    cases h with
    | anyWord => exact ⟨rfl, rfl⟩
    | plain _ hplain => exact absurd (Or.inr (Or.inr (Or.inl ⟨rfl, hon⟩))) hplain
  · intro h
    obtain ⟨rfl, rfl⟩ := h
    exact .anyWord s hon

theorem simple_plain_iff (hplain : ¬ Special n.extensions x) :
    Simple n (x :: s) p rest ↔ .char x = p ∧ s = rest := by
  constructor
  · intro h
    cases h with
    | plain => exact ⟨rfl, rfl⟩
    | bracket | negatedBracket | anyChar | quoted | emptyGroup | group | classEscape | escape =>
        exact absurd (Or.inl (by decide)) hplain
    | empty _ hon => exact absurd (Or.inr (Or.inl ⟨rfl, hon⟩)) hplain
    | anyWord _ hon => exact absurd (Or.inr (Or.inr (Or.inl ⟨rfl, hon⟩))) hplain
    | angle _ _ hangle =>
        refine absurd (Or.inr (Or.inr (Or.inr (Or.inl ⟨rfl, ?_⟩)))) hplain
        cases hangle with
        | reference hon => exact Or.inl hon
        | numerals hon => exact Or.inr hon
  · intro h
    obtain ⟨rfl, rfl⟩ := h
    exact .plain s hplain

theorem simple_nil : ¬ Simple n [] p rest := by
  intro h
  cases h

end Simple

/-! ## The levels -/

mutual

theorem alternatives_gives_iff (n : Notation) (c : Cursor) (p : Pattern) (rest : List Char) :
    (alternatives n c).Gives p rest ↔ Alternatives n c.chars p rest := by
  rw [alternatives, gives_bind_iff]
  constructor
  · intro h
    obtain ⟨⟨first, after, hafter⟩, hfirst, h⟩ := h
    have hderived := (conjunction_gives_iff n c first after.chars).1 (gives_of_eq hfirst)
    rcases after.skip?_cases '|' with ⟨⟨⟨⟩, bar, hbar⟩, hskip, hchars⟩ | ⟨hskip, hhead⟩
    · simp only [hskip] at h
      have hlt : bar.chars.length < c.chars.length := Nat.lt_trans hbar hafter
      rw [hchars] at hderived
      obtain ⟨second, hsecond, h⟩ := gives_bind_iff.1 h
      obtain ⟨rfl, rfl⟩ := gives_ok_iff.1 h
      exact .more hderived
        ((alternatives_gives_iff n bar second.value second.rest.chars).1 (gives_of_eq hsecond))
    · simp only [hskip] at h
      obtain ⟨rfl, rfl⟩ := gives_ok_iff.1 h
      exact .last hderived hhead
  · intro h
    cases h with
    | last hfirst hhead =>
        obtain ⟨⟨first, after, hafter⟩, heq, rfl, rfl⟩ :=
          (conjunction_gives_iff n c _ _).2 hfirst
        refine ⟨_, heq, ?_⟩
        simp only [Cursor.skip?_eq_none hhead]
        exact gives_ok_iff.2 ⟨rfl, rfl⟩
    | more hfirst hsecond =>
        obtain ⟨⟨first, after, hafter⟩, heq, rfl, hchars⟩ :=
          (conjunction_gives_iff n c _ _).2 hfirst
        obtain ⟨⟨⟨⟩, bar, hbar⟩, hskip, rfl⟩ := Cursor.exists_skip? hchars
        have hlt : bar.chars.length < c.chars.length := Nat.lt_trans hbar hafter
        obtain ⟨second, heq', rfl, rfl⟩ := (alternatives_gives_iff n bar _ _).2 hsecond
        refine ⟨_, heq, ?_⟩
        simp only [hskip]
        exact gives_bind_iff.2 ⟨second, heq', gives_ok_iff.2 ⟨rfl, rfl⟩⟩
termination_by 8 * c.chars.length + 6
decreasing_by all_goals omega

theorem conjunction_gives_iff (n : Notation) (c : Cursor) (p : Pattern) (rest : List Char) :
    (conjunction n c).Gives p rest ↔ Conjunction n c.chars p rest := by
  rw [conjunction, gives_bind_iff]
  constructor
  · intro h
    obtain ⟨⟨first, after, hafter⟩, hfirst, h⟩ := h
    have hderived := (sequence_gives_iff n c first after.chars).1 (gives_of_eq hfirst)
    by_cases hon : n.extensions.intersection = true
    · simp only [if_pos hon] at h
      rcases after.skip?_cases '&' with ⟨⟨⟨⟩, mark, hmark⟩, hskip, hchars⟩ | ⟨hskip, hhead⟩
      · simp only [hskip] at h
        have hlt : mark.chars.length < c.chars.length := Nat.lt_trans hmark hafter
        rw [hchars] at hderived
        obtain ⟨second, hsecond, h⟩ := gives_bind_iff.1 h
        obtain ⟨rfl, rfl⟩ := gives_ok_iff.1 h
        exact .more hon hderived
          ((conjunction_gives_iff n mark second.value second.rest.chars).1 (gives_of_eq hsecond))
      · simp only [hskip] at h
        obtain ⟨rfl, rfl⟩ := gives_ok_iff.1 h
        exact .last hderived (fun _ => hhead)
    · simp only [if_neg hon] at h
      obtain ⟨rfl, rfl⟩ := gives_ok_iff.1 h
      exact .last hderived (fun hon' => absurd hon' hon)
  · intro h
    cases h with
    | last hfirst hhead =>
        obtain ⟨⟨first, after, hafter⟩, heq, rfl, rfl⟩ := (sequence_gives_iff n c _ _).2 hfirst
        refine ⟨_, heq, ?_⟩
        have hskip : (if n.extensions.intersection = true then after.skip? '&' else none) =
            none := by
          by_cases hon : n.extensions.intersection = true
          · rw [if_pos hon, Cursor.skip?_eq_none (hhead hon)]
          · rw [if_neg hon]
        simp only [hskip]
        exact gives_ok_iff.2 ⟨rfl, rfl⟩
    | more hon hfirst hsecond =>
        obtain ⟨⟨first, after, hafter⟩, heq, rfl, hchars⟩ :=
          (sequence_gives_iff n c _ _).2 hfirst
        obtain ⟨⟨⟨⟩, mark, hmark⟩, hskip, rfl⟩ := Cursor.exists_skip? hchars
        have hlt : mark.chars.length < c.chars.length := Nat.lt_trans hmark hafter
        obtain ⟨second, heq', rfl, rfl⟩ := (conjunction_gives_iff n mark _ _).2 hsecond
        refine ⟨_, heq, ?_⟩
        simp only [if_pos hon, hskip]
        exact gives_bind_iff.2 ⟨second, heq', gives_ok_iff.2 ⟨rfl, rfl⟩⟩
termination_by 8 * c.chars.length + 5
decreasing_by all_goals omega

theorem sequence_gives_iff (n : Notation) (c : Cursor) (p : Pattern) (rest : List Char) :
    (sequence n c).Gives p rest ↔ Sequence n c.chars p rest := by
  rw [sequence, gives_bind_iff]
  constructor
  · intro h
    obtain ⟨⟨first, after, hafter⟩, hfirst, h⟩ := h
    have hderived := (quantified_gives_iff n c first after.chars).1 (gives_of_eq hfirst)
    by_cases hstop : after.peek?.all (endsSequence n.extensions) = true
    · simp only [if_pos hstop] at h
      obtain ⟨rfl, rfl⟩ := gives_ok_iff.1 h
      exact .last hderived (all_endsSequence_iff.1 hstop)
    · simp only [if_neg hstop] at h
      obtain ⟨second, hsecond, h⟩ := gives_bind_iff.1 h
      obtain ⟨rfl, rfl⟩ := gives_ok_iff.1 h
      obtain ⟨x, t, hchars, hends⟩ := not_all_endsSequence_iff.1 hstop
      have hmore :=
        (sequence_gives_iff n after second.value second.rest.chars).1 (gives_of_eq hsecond)
      rw [hchars] at hderived hmore
      exact .more hderived hends hmore
  · intro h
    cases h with
    | last hfirst hstop =>
        obtain ⟨⟨first, after, hafter⟩, heq, rfl, rfl⟩ :=
          (quantified_gives_iff n c _ _).2 hfirst
        refine ⟨_, heq, ?_⟩
        simp only [if_pos (all_endsSequence_iff.2 hstop)]
        exact gives_ok_iff.2 ⟨rfl, rfl⟩
    | more hfirst hends hsecond =>
        obtain ⟨⟨first, after, hafter⟩, heq, rfl, hchars⟩ :=
          (quantified_gives_iff n c _ _).2 hfirst
        have hstop := not_all_endsSequence_iff.2 ⟨_, _, hchars, hends⟩
        rw [← hchars] at hsecond
        obtain ⟨second, heq', rfl, rfl⟩ := (sequence_gives_iff n after _ _).2 hsecond
        refine ⟨_, heq, ?_⟩
        simp only [if_neg hstop]
        exact gives_bind_iff.2 ⟨second, heq', gives_ok_iff.2 ⟨rfl, rfl⟩⟩
termination_by 8 * c.chars.length + 4
decreasing_by all_goals omega

theorem quantified_gives_iff (n : Notation) (c : Cursor) (p : Pattern) (rest : List Char) :
    (quantified n c).Gives p rest ↔ Quantified n c.chars p rest := by
  rw [quantified, gives_bind_iff]
  constructor
  · intro h
    obtain ⟨⟨body, after, hafter⟩, hbody, h⟩ := h
    exact .intro ((negated_gives_iff n c body after.chars).1 (gives_of_eq hbody))
      ((quantifiers_gives_iff _).1 h)
  · intro h
    cases h with
    | intro hbody hquantifiers =>
        obtain ⟨⟨body, after, hafter⟩, heq, rfl, rfl⟩ := (negated_gives_iff n c _ _).2 hbody
        exact ⟨_, heq, (quantifiers_gives_iff _).2 hquantifiers⟩
termination_by 8 * c.chars.length + 3

theorem negated_gives_iff (n : Notation) (c : Cursor) (p : Pattern) (rest : List Char) :
    (negated n c).Gives p rest ↔ Negated n c.chars p rest := by
  rw [negated]
  by_cases hon : n.extensions.complement = true
  · rw [if_pos hon]
    rcases c.skip?_cases '~' with ⟨⟨⟨⟩, after, hafter⟩, hskip, hchars⟩ | ⟨hskip, hhead⟩
    · simp only [hskip]
      rw [hchars, gives_bind_iff]
      constructor
      · intro h
        obtain ⟨body, hbody, h⟩ := h
        obtain ⟨rfl, rfl⟩ := gives_ok_iff.1 h
        exact .tilde hon
          ((negated_gives_iff n after body.value body.rest.chars).1 (gives_of_eq hbody))
      · intro h
        cases h with
        | tilde _ hbody =>
            obtain ⟨body, heq, rfl, rfl⟩ := (negated_gives_iff n after _ _).2 hbody
            exact ⟨body, heq, gives_ok_iff.2 ⟨rfl, rfl⟩⟩
        | bare hhead => exact absurd rfl (hhead hon)
    · simp only [hskip]
      constructor
      · intro h
        exact .bare (fun _ => hhead) ((simple_gives_iff n c (fun _ => hhead) p rest).1 h)
      · intro h
        obtain ⟨s, hs⟩ : ∃ s, c.chars = s := ⟨_, rfl⟩
        rw [hs] at h
        cases h with
        | tilde =>
            rw [hs] at hhead
            exact absurd rfl hhead
        | bare _ hsimple =>
            exact (simple_gives_iff n c (fun _ => hhead) p rest).2 (hs ▸ hsimple)
  · rw [if_neg hon]
    have hoff : n.extensions.complement = true → c.chars.head? ≠ some '~' :=
      fun hon' => absurd hon' hon
    constructor
    · intro h
      exact .bare hoff ((simple_gives_iff n c hoff p rest).1 h)
    · intro h
      obtain ⟨s, hs⟩ : ∃ s, c.chars = s := ⟨_, rfl⟩
      rw [hs] at h
      cases h with
      | tilde hon' => exact absurd hon' hon
      | bare _ hsimple => exact (simple_gives_iff n c hoff p rest).2 (hs ▸ hsimple)
termination_by 8 * c.chars.length + 2
decreasing_by all_goals omega

theorem simple_gives_iff (n : Notation) (c : Cursor)
    (h : n.extensions.complement = true → c.chars.head? ≠ some '~')
    (p : Pattern) (rest : List Char) :
    (simple n c).Gives p rest ↔ Simple n c.chars p rest := by
  rw [simple]
  rcases hnext : c.next? with _ | ⟨x, after, hafter⟩
  · refine iff_of_false not_gives_error ?_
    rw [Cursor.next?_eq_none_iff.1 hnext]
    exact simple_nil
  have hchars : c.chars = x :: after.chars := Cursor.chars_of_next? hnext
  have hsimple : Simple n c.chars p rest ↔ Simple n (x :: after.chars) p rest := by rw [hchars]
  rw [hchars] at h
  rw [hsimple]
  dsimp only
  by_cases hbracket : x = '['
  · subst hbracket
    rw [if_pos rfl, gives_within_iff, bracketed_gives_iff, simple_bracket_iff]
  by_cases hdot : x = '.'
  · subst hdot
    rw [if_neg hbracket, if_pos rfl, gives_ok_iff, simple_anyChar_iff]
  by_cases hempty : x = '#' ∧ n.extensions.empty = true
  · obtain ⟨rfl, hon⟩ := hempty
    rw [if_neg hbracket, if_neg hdot, if_pos ⟨rfl, hon⟩, gives_ok_iff, simple_empty_iff hon]
  by_cases hword : x = '@' ∧ n.extensions.anyWord = true
  · obtain ⟨rfl, hon⟩ := hword
    rw [if_neg hbracket, if_neg hdot, if_neg hempty, if_pos ⟨rfl, hon⟩, gives_ok_iff,
      simple_anyWord_iff hon]
  by_cases hquote : x = '"'
  · subst hquote
    rw [if_neg hbracket, if_neg hdot, if_neg hempty, if_neg hword, if_pos rfl, gives_within_iff,
      quoted_gives_iff, simple_quote_iff]
  by_cases hgroup : x = '('
  · subst hgroup
    rw [if_neg hbracket, if_neg hdot, if_neg hempty, if_neg hword, if_neg hquote, if_pos rfl,
      gives_bind_within_iff, group_gives_iff n after p rest]
  by_cases hangle : x = '<' ∧ (n.extensions.reference = true ∨ n.extensions.numerals = true)
  · obtain ⟨rfl, hon⟩ := hangle
    rw [if_neg hbracket, if_neg hdot, if_neg hempty, if_neg hword, if_neg hquote, if_neg hgroup,
      if_pos ⟨rfl, hon⟩, gives_within_iff, angled_gives_iff, simple_angle_iff hon]
  by_cases hescape : x = '\\'
  · subst hescape
    rw [if_neg hbracket, if_neg hdot, if_neg hempty, if_neg hword, if_neg hquote, if_neg hgroup,
      if_neg hangle, if_pos rfl, gives_within_iff, escaped_gives_iff, simple_escape_iff]
  rw [if_neg hbracket, if_neg hdot, if_neg hempty, if_neg hword, if_neg hquote, if_neg hgroup,
    if_neg hangle, if_neg hescape, gives_ok_iff, simple_plain_iff]
  intro hspecial
  simp only [Special, List.mem_cons, List.not_mem_nil, or_false] at hspecial
  rcases hspecial with (h1 | h1 | h1 | h1 | h1) | h1 | h1 | h1 | ⟨rfl, hon⟩
  · exact hbracket h1
  · exact hdot h1
  · exact hquote h1
  · exact hgroup h1
  · exact hescape h1
  · exact hempty h1
  · exact hword h1
  · exact hangle h1
  · exact h hon rfl
termination_by 8 * c.chars.length + 1

theorem group_gives_iff (n : Notation) (c : Cursor) (p : Pattern) (rest : List Char) :
    (group n c).Gives p rest ↔ Simple n ('(' :: c.chars) p rest := by
  rw [simple_group_iff, group]
  have hstart : ∀ t, GroupStart c.chars t ↔ (skipFlags c).val.chars = t :=
    fun t => skipFlags_iff.symm
  revert hstart
  rcases skipFlags c with ⟨start, hle⟩
  intro hstart
  simp only [hstart, exists_eq_left']
  rcases start.skip?_cases ')' with ⟨⟨⟨⟩, close, hclose⟩, hskip, hchars⟩ | ⟨hskip, hhead⟩
  · simp only [hskip]
    rw [gives_ok_iff, hchars]
    constructor
    · intro h
      obtain ⟨rfl, rfl⟩ := h
      exact Or.inl ⟨rfl, rfl⟩
    · intro h
      rcases h with ⟨heq, rfl⟩ | ⟨hne, -⟩
      · exact ⟨rfl, (List.cons.inj heq).2⟩
      · exact absurd rfl hne
  · simp only [hskip]
    rw [gives_bind_iff]
    constructor
    · intro h
      obtain ⟨⟨body, after, hafter⟩, hbody, h⟩ := h
      obtain ⟨close, hclose, h⟩ := gives_bind_iff.1 h
      obtain ⟨rfl, rfl⟩ := gives_ok_iff.1 h
      have hderived := (alternatives_gives_iff n start body after.chars).1 (gives_of_eq hbody)
      rw [Cursor.chars_of_expect hclose] at hderived
      exact Or.inr ⟨hhead, hderived⟩
    · intro h
      rcases h with ⟨heq, -⟩ | ⟨-, hbody⟩
      · rw [heq] at hhead
        exact absurd rfl hhead
      · obtain ⟨⟨body, after, hafter⟩, heq, rfl, hchars⟩ :=
          (alternatives_gives_iff n start p (')' :: rest)).2 hbody
        obtain ⟨close, hclose, hrest⟩ := Cursor.exists_expect hchars
        exact ⟨_, heq, gives_bind_iff.2 ⟨close, hclose, gives_ok_iff.2 ⟨rfl, hrest⟩⟩⟩
termination_by 8 * c.chars.length + 7
decreasing_by all_goals omega

end

end Parser

/-! ## Whole texts -/

/-- A text is read as a pattern if and only if it stands for the pattern. -/
theorem parse_eq_ok_iff {n : Notation} {s : List Char} {p : Pattern} :
    parse n s = .ok p ↔ Reads n s p := by
  unfold parse
  by_cases hs : s.isEmpty = true
  · rw [if_pos hs]
    rw [List.isEmpty_iff] at hs
    subst hs
    rw [Except.ok.injEq]
    constructor
    · intro h
      rw [← h]
      exact .empty
    · intro h
      cases h with
      | empty => rfl
      | text hne _ => exact absurd rfl hne
  · rw [if_neg hs]
    rw [List.isEmpty_iff] at hs
    have hlevel := Parser.alternatives_gives_iff n (Cursor.ofText s) p []
    constructor
    · intro h
      cases heq : Parser.alternatives n (Cursor.ofText s) with
      | error e =>
          rw [heq] at h
          cases h
      | ok r =>
          rw [heq] at h
          obtain ⟨q, rest, hrest⟩ := r
          change (if rest.chars.isEmpty = true then Except.ok q else _) = _ at h
          split at h
          · next hempty =>
            cases h
            have hnil : rest.chars = [] := List.isEmpty_iff.1 hempty
            exact .text hs (hlevel.1 ⟨_, heq, rfl, hnil⟩)
          · cases h
    · intro h
      cases h with
      | empty => exact absurd rfl hs
      | text _ hderived =>
          obtain ⟨⟨q, rest, hrest⟩, heq, rfl, hnil⟩ := hlevel.2 hderived
          have hempty : rest.chars.isEmpty = true := List.isEmpty_iff.2 hnil
          rw [heq]
          exact if_pos hempty

end PatternAutomata.Pattern
