import PatternAutomata.Proofs.Cursors

/-!
# The forms that are not composed

Each step of the parser below the levels of the notation gives what the grammar has at its
place: classes in brackets, quoted text, angle brackets, escapes, the beginning of a group,
and quantifiers. The statements are equivalences, so the parser neither accepts more than
the grammar nor less.

## Main results

* `bracketed_gives_iff`: classes.
* `angled_gives_iff`: names and ranges of numbers.
* `quantifiers_gives_iff`: quantifiers.
-/

namespace PatternAutomata.Pattern.Parser

open Grammar

variable {c : Cursor} {p q : Pattern} {s rest : List Char}

/-! ## Classes in brackets -/

theorem classMember_gives_iff {x : Char} :
    (classMember c).Gives x rest ↔ Member c.chars x rest := by
  obtain ⟨chars, position⟩ := c
  cases chars with
  | nil =>
      refine iff_of_false not_gives_error ?_
      intro h
      cases h
  | cons y chars =>
      by_cases hy : y = '\\'
      · subst hy
        cases chars with
        | nil =>
            refine iff_of_false not_gives_error ?_
            intro h
            cases h with
            | bare _ hne => exact hne rfl
        | cons z chars =>
            refine gives_ok_iff.trans ?_
            constructor
            · intro h
              obtain ⟨rfl, rfl⟩ := h
              exact .escaped z chars
            · intro h
              cases h with
              | bare _ hne => exact absurd rfl hne
              | escaped => exact ⟨rfl, rfl⟩
      · have hstart : Cursor.skipAny ⟨y :: chars, position⟩ '\\' = Cursor.stay _ := by
          rw [Cursor.skipAny, Cursor.skip?_eq_none (by simpa using hy)]
        rw [classMember, hstart]
        refine gives_ok_iff.trans ?_
        constructor
        · intro h
          obtain ⟨rfl, rfl⟩ := h
          exact .bare chars hy
        · intro h
          cases h with
          | bare => exact ⟨rfl, rfl⟩
          | escaped => exact absurd rfl hy

theorem classItem_gives_iff : (classItem c).Gives p rest ↔ Item c.chars p rest := by
  unfold classItem
  rw [gives_bind_iff]
  constructor
  · intro h
    obtain ⟨⟨lo, after, hafter⟩, hlo, h⟩ := h
    have hmember := classMember_gives_iff.1 (gives_of_eq hlo)
    rcases after.skip?_cases '-' with ⟨⟨⟨⟩, dash, hdash⟩, hskip, hchars⟩ | ⟨hskip, hhead⟩
    · simp only [hskip] at h
      rw [hchars] at hmember
      by_cases hclose : dash.peek? = some ']'
      · rw [if_pos hclose] at h
        obtain ⟨rfl, rfl⟩ := gives_ok_iff.1 h
        obtain ⟨t, ht⟩ := List.head?_eq_some_iff.1 hclose
        rw [ht] at hmember ⊢
        exact .dash hmember
      · rw [if_neg hclose] at h
        obtain ⟨hi, hhi, h⟩ := gives_bind_iff.1 h
        obtain ⟨rfl, rfl⟩ := gives_ok_iff.1 h
        exact .range hmember hclose (classMember_gives_iff.1 (gives_of_eq hhi))
    · simp only [hskip] at h
      obtain ⟨rfl, rfl⟩ := gives_ok_iff.1 h
      exact .single hmember hhead
  · intro h
    cases h with
    | single hmember hhead =>
        obtain ⟨⟨lo, after, hafter⟩, hlo, rfl, rfl⟩ := classMember_gives_iff.2 hmember
        refine ⟨_, hlo, ?_⟩
        simp only [Cursor.skip?_eq_none hhead]
        exact gives_ok_iff.2 ⟨rfl, rfl⟩
    | dash hmember =>
        obtain ⟨⟨lo, after, hafter⟩, hlo, rfl, hchars⟩ := classMember_gives_iff.2 hmember
        obtain ⟨⟨⟨⟩, dash, hdash⟩, hskip, hrest⟩ := Cursor.exists_skip? hchars
        refine ⟨_, hlo, ?_⟩
        simp only [hskip]
        rw [if_pos (by rw [Cursor.peek?, hrest]; rfl)]
        exact gives_ok_iff.2 ⟨rfl, hrest⟩
    | range hmember hclose hhi =>
        obtain ⟨⟨lo, after, hafter⟩, hlo, rfl, hchars⟩ := classMember_gives_iff.2 hmember
        obtain ⟨⟨⟨⟩, dash, hdash⟩, hskip, rfl⟩ := Cursor.exists_skip? hchars
        obtain ⟨hi, heq, rfl, rfl⟩ := classMember_gives_iff.2 hhi
        refine ⟨_, hlo, ?_⟩
        simp only [hskip]
        have hopen : dash.peek? ≠ some ']' := hclose
        rw [if_neg hopen]
        exact gives_bind_iff.2 ⟨hi, heq, gives_ok_iff.2 ⟨rfl, rfl⟩⟩

theorem ne_nil_of_item (h : Item s p rest) : s ≠ [] := by
  have hmember : ∃ x t, Member s x t := by
    cases h with
    | single h => exact ⟨_, _, h⟩
    | dash h => exact ⟨_, _, h⟩
    | range h => exact ⟨_, _, h⟩
  obtain ⟨x, t, hmember⟩ := hmember
  cases hmember <;> exact List.cons_ne_nil _ _

theorem items_of_moreItems {origin : Cursor} (items : Pattern) (c : Cursor)
    (h : c.chars.length < origin.chars.length)
    (hgives : (moreItems items c h).Gives q (']' :: rest)) : Items c.chars items q rest := by
  rw [moreItems] at hgives
  by_cases hstop : c.peek? = none ∨ c.peek? = some ']'
  · rw [if_pos hstop] at hgives
    obtain ⟨rfl, hchars⟩ := gives_ok_iff.1 hgives
    rw [show c.chars = ']' :: rest from hchars]
    exact .done items rest
  · rw [if_neg hstop] at hgives
    obtain ⟨⟨item, after, hafter⟩, hitem, hgives⟩ := gives_bind_iff.1 hgives
    refine .more (fun hclose => hstop (Or.inr hclose))
      (classItem_gives_iff.1 (gives_of_eq hitem)) ?_
    exact items_of_moreItems _ after _ hgives
termination_by c.chars.length

theorem moreItems_of_items {origin : Cursor} (hitems : Items s p q rest) (hs : c.chars = s)
    (h : c.chars.length < origin.chars.length) :
    (moreItems p c h).Gives q (']' :: rest) := by
  induction hitems generalizing c with
  | done p rest =>
      rw [moreItems, if_pos (Or.inr (by rw [Cursor.peek?, hs]; rfl))]
      exact gives_ok_iff.2 ⟨rfl, hs⟩
  | more hclose hitem hmore ih =>
      subst hs
      have hstop : ¬ (c.peek? = none ∨ c.peek? = some ']') := by
        intro hstop
        rcases hstop with hnone | hsome
        · exact ne_nil_of_item hitem (Cursor.peek?_eq_none_iff.1 hnone)
        · exact hclose hsome
      obtain ⟨⟨item, after, hafter⟩, heq, rfl, rfl⟩ := classItem_gives_iff.2 hitem
      rw [moreItems, if_neg hstop]
      exact gives_bind_iff.2 ⟨_, heq, ih rfl _⟩

/-- The items of a class and its closing bracket. -/
theorem classBody_iff : ClassBody c.chars p rest ↔
    (classItems c).Gives p (']' :: rest) := by
  unfold classItems
  rw [gives_bind_iff]
  constructor
  · intro h
    obtain ⟨hitem, hmore⟩ := h
    obtain ⟨⟨item, after, hafter⟩, heq, rfl, rfl⟩ := classItem_gives_iff.2 hitem
    exact ⟨_, heq, moreItems_of_items hmore rfl _⟩
  · intro h
    obtain ⟨⟨item, after, hafter⟩, heq, h⟩ := h
    exact .intro (classItem_gives_iff.1 (gives_of_eq heq)) (items_of_moreItems _ _ _ h)

/-- The closing bracket is what the items are read up to. -/
theorem bracketed_gives_iff_items : (bracketed c).Gives p rest ↔
    ∃ q, (classItems (c.skipAny '^').val).Gives q (']' :: rest) ∧
      (if c.peek? = some '^' then exclude q else q) = p := by
  unfold bracketed
  dsimp only
  rw [gives_bind_iff]
  constructor
  · intro h
    obtain ⟨items, hitems, h⟩ := h
    obtain ⟨close, hclose, h⟩ := gives_bind_iff.1 h
    obtain ⟨hvalue, hrest⟩ := gives_ok_iff.1 h
    have hchars := Cursor.chars_of_expect hclose
    rw [show close.rest.chars = rest from hrest] at hchars
    exact ⟨items.value, ⟨items, hitems, rfl, hchars⟩, hvalue⟩
  · intro h
    obtain ⟨q, ⟨items, hitems, rfl, hchars⟩, hvalue⟩ := h
    obtain ⟨close, hclose, hrest⟩ := Cursor.exists_expect hchars
    exact ⟨items, hitems, gives_bind_iff.2 ⟨close, hclose, gives_ok_iff.2 ⟨hvalue, hrest⟩⟩⟩

/-- A class, negated or not. -/
theorem bracketed_gives_iff : (bracketed c).Gives p rest ↔
    (c.chars.head? ≠ some '^' ∧ ClassBody c.chars p rest) ∨
      ∃ s q, c.chars = '^' :: s ∧ ClassBody s q rest ∧ p = exclude q := by
  rw [bracketed_gives_iff_items]
  by_cases hhead : c.chars.head? = some '^'
  · obtain ⟨s, hs⟩ := List.head?_eq_some_iff.1 hhead
    have hskip := Cursor.skipAny_of_chars_eq hs
    constructor
    · intro h
      obtain ⟨q, hq, rfl⟩ := h
      right
      rw [← classBody_iff, hskip] at hq
      exact ⟨s, q, hs, hq, if_pos hhead⟩
    · intro h
      rcases h with ⟨hne, -⟩ | ⟨t, q, ht, hq, rfl⟩
      · exact absurd hhead hne
      · rw [hs, List.cons.injEq] at ht
        refine ⟨q, ?_, if_pos hhead⟩
        rw [← classBody_iff, hskip, ht.2]
        exact hq
  · have hpeek : c.peek? ≠ some '^' := hhead
    rw [Cursor.skipAny_of_head?_ne hhead]
    constructor
    · intro h
      obtain ⟨q, hq, rfl⟩ := h
      left
      rw [if_neg hpeek]
      exact ⟨hhead, classBody_iff.2 hq⟩
    · intro h
      rcases h with ⟨-, hp⟩ | ⟨t, q, ht, -⟩
      · exact ⟨p, classBody_iff.1 hp, if_neg hpeek⟩
      · rw [ht] at hhead
        exact absurd rfl hhead

/-! ## Quotes and angle brackets -/

/-- The step past the text before some character. -/
theorem close_gives_iff {x : Char} :
    ((c.dropWhile (· ≠ x)).expect x).Gives () rest ↔
      x ∉ c.taken (· ≠ x) ∧ c.chars = c.taken (· ≠ x) ++ x :: rest := by
  rw [Cursor.expect_gives_iff]
  constructor
  · intro h
    exact until_iff.1 ⟨rfl, h⟩
  · intro h
    exact (until_iff.2 h).2

theorem quoted_gives_iff : (quoted c).Gives p rest ↔
    ∃ text, '"' ∉ text ∧ c.chars = text ++ '"' :: rest ∧ p = .literal text := by
  unfold quoted
  dsimp only
  rw [gives_bind_iff]
  constructor
  · intro h
    obtain ⟨close, hclose, h⟩ := h
    obtain ⟨rfl, rfl⟩ := gives_ok_iff.1 h
    obtain ⟨hmem, hchars⟩ := close_gives_iff.1 (gives_of_eq hclose)
    exact ⟨_, hmem, hchars, rfl⟩
  · intro h
    obtain ⟨text, hmem, hchars, rfl⟩ := h
    obtain ⟨htaken, hrest⟩ := until_iff.2 ⟨hmem, hchars⟩
    obtain ⟨close, hclose, hafter⟩ := Cursor.exists_expect (c := c.dropWhile (· ≠ '"')) hrest
    exact ⟨close, hclose, gives_ok_iff.2 ⟨congrArg Pattern.literal htaken, hafter⟩⟩

/-- A number that is the whole of a text. -/
theorem whole_integer_iff : Integer s (Decimal.read s) [] ↔
    s ≠ [] ∧ (∀ x ∈ s, CharClass.isDigit x = true) ∧ Decimal.read s < Cursor.integerLimit := by
  rw [integer_iff]
  constructor
  · intro h
    obtain ⟨ds, hs, -, hne, hdigits, -, hlimit⟩ := h
    rw [List.append_nil] at hs
    subst hs
    exact ⟨hne, hdigits, hlimit⟩
  · intro h
    obtain ⟨hne, hdigits, hlimit⟩ := h
    refine ⟨s, (List.append_nil s).symm, rfl, hne, hdigits, ?_, hlimit⟩
    intro x hx
    cases hx

theorem numeralRange_eq_ok_iff {lo hi : List Char} : numeralRange lo hi = .ok p ↔
    Integer lo (Decimal.read lo) [] ∧ Integer hi (Decimal.read hi) [] ∧
      p = .numerals (min (Decimal.read lo) (Decimal.read hi))
        (max (Decimal.read lo) (Decimal.read hi))
        (if lo.length = hi.length then lo.length else 0) := by
  rw [whole_integer_iff, whole_integer_iff]
  unfold numeralRange
  split
  · next hbad =>
    refine iff_of_false (by simp) ?_
    intro h
    obtain ⟨⟨hlo, hlodigits, -⟩, ⟨hhi, hhidigits, -⟩, -⟩ := h
    have hall : (lo ++ hi).all CharClass.isDigit = true := by
      rw [List.all_append, List.all_eq_true.2 hlodigits, List.all_eq_true.2 hhidigits]
      rfl
    rw [hall] at hbad
    simp [hlo, hhi] at hbad
  · next hgood =>
    simp only [Bool.or_eq_true, Bool.not_eq_eq_eq_not, Bool.not_true, List.isEmpty_iff, not_or,
      Bool.not_eq_false, List.all_append, Bool.and_eq_true, List.all_eq_true] at hgood
    obtain ⟨⟨hlo, hhi⟩, hlodigits, hhidigits⟩ := hgood
    dsimp only
    split
    · next hlarge =>
      refine iff_of_false (by simp) ?_
      intro h
      obtain ⟨⟨-, -, hlolimit⟩, ⟨-, -, hhilimit⟩, -⟩ := h
      omega
    · next hsmall =>
      rw [Except.ok.injEq]
      constructor
      · intro h
        exact ⟨⟨hlo, hlodigits, by omega⟩, ⟨hhi, hhidigits, by omega⟩, h.symm⟩
      · intro h
        exact h.2.2.symm

theorem angleContent_eq_ok_iff {e : Extensions} {text : List Char} :
    angleContent e text = .ok p ↔ Angle e text p := by
  unfold angleContent
  dsimp only
  by_cases hdash : '-' ∈ text
  · obtain ⟨lo, hi, htext, hlo⟩ := List.eq_append_cons_of_mem hdash
    obtain ⟨htaken, hrest⟩ := until_iff.2 ⟨hlo, htext⟩
    rw [htaken, hrest]
    dsimp only
    constructor
    · intro h
      split at h
      · next hnumerals =>
        obtain ⟨hlo, hhi, rfl⟩ := numeralRange_eq_ok_iff.1 h
        rw [htext]
        exact .numerals hnumerals hlo hhi
      · cases h
    · intro h
      cases h with
      | reference _ hnodash => exact absurd hdash hnodash
      | @numerals lo' hi' hnumerals hlo' hhi' =>
          have hlo'dash : '-' ∉ lo' := by
            intro hmem
            cases (whole_integer_iff.1 hlo').2.1 _ hmem
          obtain ⟨htaken', hrest'⟩ := until_iff.2 ⟨hlo'dash, rfl⟩
          rw [htaken'] at htaken
          rw [hrest', List.cons.injEq] at hrest
          rw [← htaken, ← hrest.2, if_pos hnumerals]
          exact numeralRange_eq_ok_iff.2 ⟨hlo', hhi', rfl⟩
  · rw [dropWhile_ne_eq_nil_iff.2 hdash]
    dsimp only
    constructor
    · intro h
      split at h
      · next hreference =>
        cases h
        exact .reference hreference hdash
      · cases h
    · intro h
      cases h with
      | reference hreference _ => exact if_pos hreference
      | numerals => exact absurd (by simp) hdash

theorem angled_gives_iff {e : Extensions} : (angled e c).Gives p rest ↔
    ∃ text, '>' ∉ text ∧ c.chars = text ++ '>' :: rest ∧ Angle e text p := by
  unfold angled
  dsimp only
  rw [gives_bind_iff]
  constructor
  · intro h
    obtain ⟨close, hclose, h⟩ := h
    obtain ⟨hmem, hchars⟩ := close_gives_iff.1 (gives_of_eq hclose)
    cases hcontent : angleContent e (c.taken (· ≠ '>')) with
    | error fault =>
        simp only [hcontent] at h
        exact (not_gives_error h).elim
    | ok content =>
        simp only [hcontent] at h
        obtain ⟨rfl, rfl⟩ := gives_ok_iff.1 h
        exact ⟨_, hmem, hchars, angleContent_eq_ok_iff.1 hcontent⟩
  · intro h
    obtain ⟨text, hmem, hchars, hcontent⟩ := h
    obtain ⟨htaken, hrest⟩ := until_iff.2 ⟨hmem, hchars⟩
    obtain ⟨close, hclose, hafter⟩ := Cursor.exists_expect (c := c.dropWhile (· ≠ '>')) hrest
    refine ⟨close, hclose, ?_⟩
    rw [← htaken] at hcontent
    have heq : angleContent e (c.taken (· ≠ '>')) = .ok p := angleContent_eq_ok_iff.2 hcontent
    simp only [heq]
    exact gives_ok_iff.2 ⟨rfl, hafter⟩

/-! ## Escapes and the beginning of a group -/

theorem escaped_gives_iff {alphabet : Option Alphabet} : (escaped alphabet c).Gives p rest ↔
    ∃ x, c.chars = x :: rest ∧
      (if x ∈ classLetters then classEscape alphabet x else .char x) = p := by
  obtain ⟨chars, position⟩ := c
  cases chars with
  | nil =>
      refine iff_of_false not_gives_error ?_
      intro h
      obtain ⟨x, hx, -⟩ := h
      cases hx
  | cons x chars =>
      refine gives_ok_iff.trans ?_
      constructor
      · intro h
        obtain ⟨hvalue, rfl⟩ := h
        exact ⟨x, rfl, hvalue⟩
      · intro h
        obtain ⟨y, hy, hvalue⟩ := h
        obtain ⟨rfl, rfl⟩ := List.cons.inj hy
        exact ⟨hvalue, rfl⟩

/-- The beginning of a group, with the maximal run of flags brought out. -/
theorem groupStart_iff : GroupStart s rest ↔ (s.head? ≠ some '?' ∧ s = rest) ∨
    ∃ fs after, s = '?' :: (fs ++ after) ∧ (∀ x ∈ fs, x ∈ groupFlags) ∧
      (∀ x ∈ after.head?, x ∉ groupFlags) ∧
      (after = ':' :: rest ∨ (after.head? ≠ some ':' ∧ after = rest)) := by
  constructor
  · intro h
    cases h with
    | none hhead => exact Or.inl ⟨hhead, rfl⟩
    | flags hfs hstop hcolon => exact Or.inr ⟨_, _, rfl, hfs, hstop, Or.inr ⟨hcolon, rfl⟩⟩
    | flagsColon hfs =>
        refine Or.inr ⟨_, _, rfl, hfs, ?_, Or.inl rfl⟩
        intro x hx
        cases hx
        decide
  · intro h
    rcases h with ⟨hhead, rfl⟩ | ⟨fs, after, rfl, hfs, hstop, rfl | ⟨hcolon, rfl⟩⟩
    · exact .none hhead
    · exact .flagsColon hfs
    · exact .flags hfs hstop hcolon

theorem skipFlags_iff : (skipFlags c).val.chars = rest ↔ GroupStart c.chars rest := by
  rw [groupStart_iff]
  rcases c.skip?_cases '?' with ⟨⟨⟨⟩, start, hstart⟩, hskip, hchars⟩ | ⟨hskip, hhead⟩
  · have hval : (skipFlags c).val = ((start.dropWhile (· ∈ groupFlags)).skipAny ':').val := by
      rw [skipFlags, hskip]
    rw [hval, Cursor.skipAny_chars_iff, hchars]
    constructor
    · intro h
      obtain ⟨heq, hfs, hstop⟩ := start.run_spec (· ∈ groupFlags)
      refine Or.inr ⟨_, _, congrArg _ heq, ?_, ?_, h⟩
      · intro x hx
        simpa using hfs x hx
      · intro x hx
        simpa using hstop x hx
    · intro h
      rcases h with ⟨hne, -⟩ | ⟨fs, after, heq, hfs, hstop, h⟩
      · exact absurd rfl hne
      · have hdrop : (start.dropWhile (· ∈ groupFlags)).chars = after := by
          refine (span_iff.2 ⟨(List.cons.inj heq).2, ?_, ?_⟩).2
          · intro x hx
            simpa using hfs x hx
          · intro x hx
            simpa using hstop x hx
        rw [hdrop]
        exact h
  · have hval : (skipFlags c).val = c := by
      rw [skipFlags, hskip]
      rfl
    rw [hval]
    constructor
    · intro h
      exact Or.inl ⟨hhead, h⟩
    · intro h
      rcases h with h | ⟨fs, after, heq, -⟩
      · exact h.2
      · rw [heq] at hhead
        exact absurd rfl hhead

/-! ## Quantifiers -/

/-- What a count in braces stands for. -/
def bounded : Nat × Option Nat → Pattern → Pattern
  | (min, some max) => .between min max
  | (min, none) => .atLeast min

/-- The bounds of a count in braces are in order. -/
def InOrder (bounds : Nat × Option Nat) : Prop := ∀ max ∈ bounds.2, bounds.1 ≤ max

theorem repetition_of_gives {bounds : Nat × Option Nat}
    (h : (repetition c).Gives bounds rest) (horder : InOrder bounds) :
    Repetition c.chars (bounded bounds) rest := by
  unfold repetition at h
  obtain ⟨⟨min, after, hafter⟩, hmin, h⟩ := gives_bind_iff.1 h
  have hinteger := Cursor.integer_gives_iff.1 (gives_of_eq hmin)
  rcases after.skip?_cases ',' with ⟨⟨⟨⟩, comma, hcomma⟩, hskip, hchars⟩ | ⟨hskip, hhead⟩
  · simp only [hskip] at h
    rw [hchars] at hinteger
    split at h
    · obtain ⟨⟨max, after', hafter'⟩, hmax, h⟩ := gives_bind_iff.1 h
      have hinteger' := Cursor.integer_gives_iff.1 (gives_of_eq hmax)
      obtain ⟨close, hclose, h⟩ := gives_bind_iff.1 h
      obtain ⟨rfl, rfl⟩ := gives_ok_iff.1 h
      rw [Cursor.chars_of_expect hclose] at hinteger'
      exact .between hinteger hinteger' (horder max rfl)
    · obtain ⟨close, hclose, h⟩ := gives_bind_iff.1 h
      obtain ⟨rfl, rfl⟩ := gives_ok_iff.1 h
      rw [Cursor.chars_of_expect hclose] at hinteger
      exact .atLeast hinteger
  · simp only [hskip] at h
    obtain ⟨close, hclose, h⟩ := gives_bind_iff.1 h
    obtain ⟨rfl, rfl⟩ := gives_ok_iff.1 h
    rw [Cursor.chars_of_expect hclose] at hinteger
    exact .exactly hinteger

theorem head?_of_integer {n : Nat} (h : Integer s n rest) :
    s.head?.any CharClass.isDigit = true := by
  obtain ⟨ds, rfl, -, hne, hdigits, -⟩ := integer_iff.1 h
  cases ds with
  | nil => exact absurd rfl hne
  | cons d ds => exact hdigits d (List.mem_cons_self ..)

theorem gives_of_repetition {f : Pattern → Pattern} (h : Repetition c.chars f rest) :
    ∃ bounds, (repetition c).Gives bounds rest ∧ InOrder bounds ∧ f = bounded bounds := by
  unfold repetition
  cases h with
  | exactly hinteger =>
      obtain ⟨⟨min, after, hafter⟩, hmin, rfl, hchars⟩ := Cursor.integer_gives_iff.2 hinteger
      obtain ⟨close, hclose, hrest⟩ := Cursor.exists_expect hchars
      refine ⟨(min, some min), gives_bind_iff.2 ⟨_, hmin, ?_⟩, ?_, rfl⟩
      · have hskip : after.skip? ',' = none := by
          refine Cursor.skip?_eq_none ?_
          rw [show after.chars = '}' :: rest from hchars]
          simp
        simp only [hskip]
        exact gives_bind_iff.2 ⟨close, hclose, gives_ok_iff.2 ⟨rfl, hrest⟩⟩
      · intro max hmax
        cases hmax
        exact Nat.le_refl _
  | atLeast hinteger =>
      obtain ⟨⟨min, after, hafter⟩, hmin, rfl, hchars⟩ := Cursor.integer_gives_iff.2 hinteger
      obtain ⟨⟨⟨⟩, comma, hcomma⟩, hskip, hcommaChars⟩ := Cursor.exists_skip? hchars
      obtain ⟨close, hclose, hrest⟩ := Cursor.exists_expect hcommaChars
      refine ⟨(min, none), gives_bind_iff.2 ⟨_, hmin, ?_⟩, ?_, rfl⟩
      · simp only [hskip]
        have hdigit : ¬ comma.peek?.any CharClass.isDigit = true := by
          rw [Cursor.peek?, hcommaChars]
          exact Bool.false_ne_true
        rw [if_neg hdigit]
        exact gives_bind_iff.2 ⟨close, hclose, gives_ok_iff.2 ⟨rfl, hrest⟩⟩
      · intro max hmax
        cases hmax
  | between hinteger hinteger' horder =>
      obtain ⟨⟨min, after, hafter⟩, hmin, rfl, hchars⟩ := Cursor.integer_gives_iff.2 hinteger
      obtain ⟨⟨⟨⟩, comma, hcomma⟩, hskip, rfl⟩ := Cursor.exists_skip? hchars
      obtain ⟨⟨max, after', hafter'⟩, hmax, rfl, hchars'⟩ :=
        Cursor.integer_gives_iff.2 hinteger'
      obtain ⟨close, hclose, hrest⟩ := Cursor.exists_expect hchars'
      refine ⟨(min, some max), gives_bind_iff.2 ⟨_, hmin, ?_⟩, ?_, rfl⟩
      · simp only [hskip]
        have hdigit : comma.peek?.any CharClass.isDigit = true := head?_of_integer hinteger'
        rw [if_pos hdigit]
        exact gives_bind_iff.2 ⟨_, hmax,
          gives_bind_iff.2 ⟨close, hclose, gives_ok_iff.2 ⟨rfl, hrest⟩⟩⟩
      · intro m hm
        cases hm
        exact horder

theorem quantifiers_of_gives {origin : Cursor} (body : Pattern) (c : Cursor)
    (h : c.chars.length < origin.chars.length)
    (hgives : (quantifiers body c h).Gives p rest) : Quantifiers c.chars body p rest := by
  rw [quantifiers] at hgives
  split at hgives
  · next after hafter hnext =>
    rw [Cursor.chars_of_next? hnext]
    exact .more (.optional _) (quantifiers_of_gives _ after _ hgives)
  · next after hafter hnext =>
    rw [Cursor.chars_of_next? hnext]
    exact .more (.star _) (quantifiers_of_gives _ after _ hgives)
  · next after hafter hnext =>
    rw [Cursor.chars_of_next? hnext]
    exact .more (.plus _) (quantifiers_of_gives _ after _ hgives)
  · next after hafter hnext =>
    rw [Cursor.chars_of_next? hnext]
    obtain ⟨⟨⟨min, max?⟩, after', hafter'⟩, hrepetition, hgives⟩ := gives_bind_iff.1 hgives
    have hbounds := repetition_of_gives (gives_of_eq hrepetition)
    cases max? with
    | none =>
        have hquantifier := hbounds (by intro max hmax; cases hmax)
        exact .more (.braces hquantifier) (quantifiers_of_gives _ after' _ hgives)
    | some max =>
        by_cases horder : max < min
        · simp only [if_pos horder] at hgives
          exact (not_gives_error hgives).elim
        · simp only [if_neg horder] at hgives
          have hquantifier := hbounds (by intro m hm; cases hm; exact Nat.le_of_not_lt horder)
          exact .more (.braces hquantifier) (quantifiers_of_gives _ after' _ hgives)
  · next hoptional hstar hplus hbraces =>
    obtain ⟨rfl, rfl⟩ := gives_ok_iff.1 hgives
    refine .done body ?_
    intro x hx hsign
    obtain ⟨t, ht⟩ := List.head?_eq_some_iff.1 hx
    obtain ⟨after, hafter, hnext, -⟩ := Cursor.exists_next? ht
    simp only [quantifierSigns, List.mem_cons, List.not_mem_nil, or_false] at hsign
    rcases hsign with rfl | rfl | rfl | rfl
    · exact hoptional _ _ hnext
    · exact hstar _ _ hnext
    · exact hplus _ _ hnext
    · exact hbraces _ _ hnext
termination_by c.chars.length
decreasing_by all_goals omega

theorem gives_of_quantifiers {origin : Cursor} (hq : Quantifiers s p q rest)
    (hs : c.chars = s) (h : c.chars.length < origin.chars.length) :
    (quantifiers p c h).Gives q rest := by
  induction hq generalizing c with
  | done p hsign =>
      subst hs
      rw [quantifiers]
      have hhead : ∀ x after hafter, c.next? = some ⟨x, after, hafter⟩ → x ∉ quantifierSigns := by
        intro x after hafter hnext
        apply hsign
        rw [Cursor.chars_of_next? hnext]
        rfl
      split
      · next hnext => exact absurd (by decide) (hhead _ _ _ hnext)
      · next hnext => exact absurd (by decide) (hhead _ _ _ hnext)
      · next hnext => exact absurd (by decide) (hhead _ _ _ hnext)
      · next hnext => exact absurd (by decide) (hhead _ _ _ hnext)
      · exact gives_ok_iff.2 ⟨rfl, rfl⟩
  | more hquantifier hmore ih =>
      rw [quantifiers]
      cases hquantifier with
      | optional t =>
          obtain ⟨after, hafter, hnext, hrest⟩ := Cursor.exists_next? hs
          simp only [hnext]
          exact ih hrest _
      | star t =>
          obtain ⟨after, hafter, hnext, hrest⟩ := Cursor.exists_next? hs
          simp only [hnext]
          exact ih hrest _
      | plus t =>
          obtain ⟨after, hafter, hnext, hrest⟩ := Cursor.exists_next? hs
          simp only [hnext]
          exact ih hrest _
      | braces hrepetition =>
          obtain ⟨after, hafter, hnext, rfl⟩ := Cursor.exists_next? hs
          simp only [hnext]
          obtain ⟨⟨min, max?⟩, ⟨⟨bounds, after', hafter'⟩, heq, rfl, hrest⟩, horder, rfl⟩ :=
            gives_of_repetition hrepetition
          refine gives_bind_iff.2 ⟨_, heq, ?_⟩
          cases max? with
          | none => exact ih hrest _
          | some max =>
              have hle : min ≤ max := horder max rfl
              dsimp only
              rw [if_neg (Nat.not_lt.2 hle)]
              exact ih hrest _

/-- The quantifiers from a place on. -/
theorem quantifiers_gives_iff {origin : Cursor} (h : c.chars.length < origin.chars.length) :
    (quantifiers p c h).Gives q rest ↔ Quantifiers c.chars p q rest :=
  ⟨quantifiers_of_gives p c h, fun hq => gives_of_quantifiers hq rfl h⟩

end PatternAutomata.Pattern.Parser
