import PatternAutomata.Proofs.Trees
import PatternAutomata.Regex

/-!
# Reading what was written

The text of a pattern is read as one part of a sequence wherever it stands, as long as no
quantifier follows: everything composed is in parentheses, and no text begins with a
character that would end a sequence or quantify what stands before it.

What is read is the pattern up to two things. Neighbouring literals are joined, and a range
of numerals has the width that its written bounds have in common (`remeasure`): a range
without a width whose bounds have equally many digits comes back with that width.

## Main results

* `quantified_render`: a written pattern inside a longer text.
* `parse_render`: a written pattern alone.
-/

namespace PatternAutomata

/-- The notation that patterns are written in, with every extension and no alphabet. -/
def Notation.full : Notation := ⟨.all, none⟩

namespace Pattern

open Grammar

variable {a b p q : Pattern} {s t rest text : List Char}

/-! ## Widths -/

/-- The length that two numbers have in common when they are written with a width; 0 if they
have none. -/
def writtenWidth (lo hi width : Nat) : Nat :=
  if (Decimal.render width lo).length = (Decimal.render width hi).length then
    (Decimal.render width lo).length
  else 0

/-- The tree with the width that can be seen from the written bounds in every range of
numerals. -/
def remeasure : Pattern → Pattern
  | union a b => union (remeasure a) (remeasure b)
  | concat a b => concat (remeasure a) (remeasure b)
  | inter a b => inter (remeasure a) (remeasure b)
  | optional a => optional (remeasure a)
  | star a => star (remeasure a)
  | atLeast min a => atLeast min (remeasure a)
  | between min max a => between min max (remeasure a)
  | complement a => complement (remeasure a)
  | numerals lo hi width => numerals lo hi (writtenWidth lo hi width)
  | p => p

/-- What is read from the text of a tree. -/
def reread (p : Pattern) : Pattern := p.remeasure.refold

/-! ## What may stand next to a pattern -/

/-- The characters that end a sequence or quantify what stands before them. -/
def delimiters : List Char := [')', '|', '&', '?', '*', '+', '{']

/-- The text begins with a character that is no delimiter. -/
def Opens (s : List Char) : Prop := ∃ c t, s = c :: t ∧ c ∉ delimiters

/-- No quantifier follows. -/
def Unquantified (rest : List Char) : Prop := ∀ c ∈ rest.head?, c ∉ quantifierSigns

theorem Opens.unquantified (h : Opens s) : Unquantified s := by
  obtain ⟨c, t, rfl, hc⟩ := h
  intro x hx hsign
  cases hx
  apply hc
  simp only [quantifierSigns, List.mem_cons, List.not_mem_nil, or_false] at hsign
  rcases hsign with rfl | rfl | rfl | rfl <;> decide

theorem unquantified_cons {c : Char} (h : c ∉ quantifierSigns) : Unquantified (c :: rest) := by
  intro x hx
  cases hx
  exact h

theorem opens_cons {c : Char} (h : c ∉ delimiters) : Opens (c :: s) := ⟨c, s, rfl, h⟩

/-- The text of a pattern begins with no delimiter. -/
theorem opens_render (p : Pattern) (rest : List Char) : Opens (p.render rest) := by
  cases p with
  | char c =>
      rw [render, renderChar]
      split
      · next hletter =>
        simp only [Parser.classLetters, List.mem_cons, List.not_mem_nil, or_false] at hletter
        rcases hletter with rfl | rfl | rfl | rfl | rfl | rfl <;> exact opens_cons (by decide)
      · exact opens_cons (by decide)
  | literal text =>
      rw [render, renderLiteral]
      split <;> exact opens_cons (by decide)
  | _ => exact opens_cons (by decide)

/-! ## From forms to the levels of the notation -/

section Levels

variable {n : Notation}

theorem quantified_of_negated (h : Negated n s p rest) (hrest : Unquantified rest) :
    Quantified n s p rest := .intro h (.done p hrest)

/-- A simple form that begins with no tilde. -/
theorem negated_of_simple {c : Char} (h : Simple n (c :: s) p rest) (hc : c ≠ '~') :
    Negated n (c :: s) p rest := by
  refine .bare ?_ h
  intro _ heq
  exact hc (Option.some.inj heq)

theorem quantified_of_simple {c : Char} (h : Simple n (c :: s) p rest) (hc : c ≠ '~')
    (hrest : Unquantified rest) : Quantified n (c :: s) p rest :=
  quantified_of_negated (negated_of_simple h hc) hrest

theorem sequence_of_quantified {c : Char} (h : Quantified n s p (c :: rest))
    (hc : Ends n.extensions c) : Sequence n s p (c :: rest) := by
  refine .last h ?_
  intro x hx
  cases hx
  exact hc

theorem alternatives_of_sequence (h : Sequence n s p rest)
    (hrest : ∀ c ∈ rest.head?, c = ')') : Alternatives n s p rest := by
  refine .last (.last h ?_) ?_
  · intro _ heq
    cases hrest _ heq
  · intro heq
    cases hrest _ heq

theorem alternatives_of_quantified (h : Quantified n s p rest)
    (hrest : ∀ c ∈ rest.head?, c = ')') : Alternatives n s p rest :=
  alternatives_of_sequence (.last h fun c hc => Or.inl (hrest c hc)) hrest

/-- A group that begins with no flags. -/
theorem simple_group (h : Alternatives n s p (')' :: rest)) (hs : Opens s) :
    Simple n ('(' :: s) p rest := by
  obtain ⟨c, t, rfl, hc⟩ := hs
  refine .group (.none ?_) ?_ h
  · intro heq
    cases heq
    exact hc (by decide)
  · intro heq
    cases heq
    exact hc (by decide)

theorem head?_close : ∀ c ∈ (')' :: rest).head?, c = ')' := by
  intro c hc
  cases hc
  rfl

theorem negated_group (h : Quantified n s p (')' :: rest)) (hs : Opens s) :
    Negated n ('(' :: s) p rest :=
  negated_of_simple (simple_group (alternatives_of_quantified h head?_close) hs) (by decide)

/-- A pattern in parentheses with a quantifier. -/
theorem quantified_group {f : Pattern → Pattern} (h : Quantified n s p (')' :: t))
    (hs : Opens s) (hquantifier : Quantifier t f rest) (hrest : Unquantified rest) :
    Quantified n ('(' :: s) (f p) rest :=
  .intro (negated_group h hs) (.more hquantifier (.done _ hrest))

/-- A pattern before another one in a sequence. -/
theorem sequence_cons (h : Quantified n s p t) (ht : Opens t) (h' : Sequence n t q rest) :
    Sequence n s (join p q) rest := by
  obtain ⟨c, t, rfl, hc⟩ := ht
  refine .more h ?_ h'
  intro hends
  apply hc
  rcases hends with rfl | rfl | ⟨rfl, -⟩ <;> decide

/-- Two alternatives in parentheses. -/
theorem quantified_union (h : Quantified n s p ('|' :: t)) (hs : Opens s)
    (h' : Quantified n t q (')' :: rest)) (hrest : Unquantified rest) :
    Quantified n ('(' :: s) (.union p q) rest := by
  have hfirst : Conjunction n s p ('|' :: t) :=
    .last (sequence_of_quantified h (Or.inr (Or.inl rfl))) (by simp)
  have hsecond := alternatives_of_quantified h' head?_close
  exact quantified_of_simple (simple_group (.more hfirst hsecond) hs) (by decide) hrest

/-- Two patterns in parentheses, one after the other. -/
theorem quantified_concat (h : Quantified n s p t) (hs : Opens s)
    (h' : Quantified n t q (')' :: rest)) (ht : Opens t) (hrest : Unquantified rest) :
    Quantified n ('(' :: s) (join p q) rest := by
  have hsequence := sequence_cons h ht (sequence_of_quantified h' (Or.inl rfl))
  exact quantified_of_simple (simple_group (alternatives_of_sequence hsequence head?_close) hs)
    (by decide) hrest

/-- The intersection of two patterns in parentheses. -/
theorem quantified_inter (hon : n.extensions.intersection = true)
    (h : Quantified n s p ('&' :: t)) (hs : Opens s) (h' : Quantified n t q (')' :: rest))
    (hrest : Unquantified rest) : Quantified n ('(' :: s) (.inter p q) rest := by
  have hfirst := sequence_of_quantified h (Or.inr (Or.inr ⟨rfl, hon⟩))
  have hsecond := sequence_of_quantified h' (Or.inl rfl)
  exact quantified_of_simple
    (simple_group (.last (.more hon hfirst (.last hsecond (by simp))) (by simp)) hs) (by decide)
    hrest

end Levels

/-! ## Numbers -/

theorem integer_render {width k : Nat} (hk : k < Cursor.integerLimit) (hrest : NoDigit rest) :
    Integer (Decimal.render width k ++ rest) k rest := by
  refine integer_iff.2 ⟨_, rfl, (Decimal.read_render width k).symm,
    Decimal.render_ne_nil width k, ?_, hrest, ?_⟩
  · intro c hc
    exact Decimal.isDigit_of_mem_render hc
  · rwa [Decimal.read_render]

theorem whole_integer_render {k : Nat} (width : Nat) (hk : k < Cursor.integerLimit) :
    Integer (Decimal.render width k) (Decimal.read (Decimal.render width k)) [] := by
  refine Parser.whole_integer_iff.2 ⟨Decimal.render_ne_nil width k, ?_, ?_⟩
  · intro c hc
    exact Decimal.isDigit_of_mem_render hc
  · rwa [Decimal.read_render]

theorem noDigit_cons {c : Char} (h : CharClass.isDigit c = false) : NoDigit (c :: rest) := by
  intro x hx
  cases hx
  exact h

theorem angle_numerals {lo hi width : Nat} (hle : lo ≤ hi) (hlimit : hi < Cursor.integerLimit) :
    Angle .all (Decimal.render width lo ++ '-' :: Decimal.render width hi)
      (.numerals lo hi (writtenWidth lo hi width)) := by
  have h := Angle.numerals (e := .all) rfl
    (whole_integer_render width (Nat.lt_of_le_of_lt hle hlimit))
    (whole_integer_render width hlimit)
  rwa [Decimal.read_render, Decimal.read_render, Nat.min_eq_left hle, Nat.max_eq_right hle] at h

theorem close_not_mem_numerals (lo hi width : Nat) :
    '>' ∉ Decimal.render width lo ++ '-' :: Decimal.render width hi := by
  intro hmem
  rcases List.mem_append.1 hmem with hmem | hmem
  · cases Decimal.isDigit_of_mem_render hmem
  · rcases List.mem_cons.1 hmem with heq | hmem
    · cases heq
    · cases Decimal.isDigit_of_mem_render hmem

/-! ## Literals -/

variable {n : Notation}

theorem quantified_quoted (htext : '"' ∉ text) (hrest : Unquantified rest) :
    Quantified n ('"' :: (text ++ '"' :: rest)) (literal text) rest :=
  quantified_of_simple (.quoted rest htext) (by decide) hrest

theorem quantified_escape {c : Char} (hc : c ∉ Parser.classLetters) (hrest : Unquantified rest) :
    Quantified n ('\\' :: c :: rest) (char c) rest :=
  quantified_of_simple (.escape rest hc) (by decide) hrest

/-- The text that is cut into pieces at its quotes. -/
def glue : List (List Char) → List Char
  | [] => []
  | [p] => p
  | p :: ps => p ++ '"' :: glue ps

theorem pieces_ne_nil (text : List Char) : pieces text ≠ [] := by
  induction text with
  | nil => exact List.cons_ne_nil _ _
  | cons c cs ih =>
      rw [pieces]
      split
      · split <;> exact List.cons_ne_nil _ _
      · next hnil => exact absurd hnil ih

@[simp] theorem glue_pieces (text : List Char) : glue (pieces text) = text := by
  induction text with
  | nil => rfl
  | cons c cs ih =>
      rw [pieces]
      split
      · next p ps heq =>
        rw [heq] at ih
        split
        · next hquote =>
          rw [hquote]
          exact congrArg _ ih
        · cases ps with
          | nil => exact congrArg _ ih
          | cons q qs => exact congrArg _ ih
      · next hnil => exact absurd hnil (pieces_ne_nil cs)

theorem not_mem_pieces (text : List Char) : ∀ p ∈ pieces text, '"' ∉ p := by
  induction text with
  | nil =>
      intro p hp
      rw [List.mem_singleton.1 hp]
      exact List.not_mem_nil
  | cons c cs ih =>
      rw [pieces]
      split
      · next q qs heq =>
        rw [heq] at ih
        split
        · intro p hp
          rcases List.mem_cons.1 hp with rfl | hp
          · exact List.not_mem_nil
          · exact ih p hp
        · next hc =>
          intro p hp
          rcases List.mem_cons.1 hp with rfl | hp
          · intro hmem
            rcases List.mem_cons.1 hmem with heq | hmem
            · exact hc heq.symm
            · exact ih q (List.mem_cons_self ..) hmem
          · exact ih p (List.mem_cons_of_mem q hp)
      · next hnil => exact absurd hnil (pieces_ne_nil cs)

/-- What the text of a literal is read as. -/
def literalOf (text : List Char) : Pattern := if text = ['"'] then char '"' else literal text

@[simp] theorem text?_literalOf (text : List Char) : (literalOf text).text? = some text := by
  unfold literalOf
  split
  · next h => rw [h]; rfl
  · rfl

theorem literalOf_eq_literal (h : text ≠ ['"']) : literalOf text = literal text := if_neg h

theorem literalOf_of_not_mem (h : '"' ∉ text) : literalOf text = literal text := by
  apply literalOf_eq_literal
  intro heq
  rw [heq] at h
  exact h (List.mem_singleton.2 rfl)

theorem join_literalOf (ha : a.text? = some s) (h : s ++ t ≠ ['"']) :
    join a (literalOf t) = literalOf (s ++ t) := by
  rw [literalOf_eq_literal h, join, ha, text?_literalOf]

theorem renderPiece_of_ne_nil (h : s ≠ []) :
    renderPiece s rest = '"' :: (s ++ '"' :: rest) :=
  if_neg fun hempty => h (List.isEmpty_iff.1 hempty)

theorem glue_eq_nil {q : List Char} {qs : List (List Char)} (h : glue (q :: qs) = []) :
    q :: qs = [[]] := by
  cases qs with
  | nil => rw [show q = [] from h]
  | cons r rs =>
      have hlength := congrArg List.length h
      simp [glue] at hlength

/-- An escaped quote before what is left of a literal. -/
theorem sequence_escape (hnil : text = [] → s = ')' :: rest)
    (h : text ≠ [] → Opens s ∧ Sequence n s (literalOf text) (')' :: rest)) :
    Sequence n ('\\' :: '"' :: s) (literalOf ('"' :: text)) (')' :: rest) := by
  by_cases htext : text = []
  · rw [htext, hnil htext]
    exact sequence_of_quantified
      (quantified_escape (by decide) (unquantified_cons (by decide))) (Or.inl rfl)
  · obtain ⟨hopens, hsequence⟩ := h htext
    have hjoin : join (char '"') (literalOf text) = literalOf ('"' :: text) := by
      refine join_literalOf (s := ['"']) rfl ?_
      intro heq
      exact htext (List.cons.inj heq).2
    rw [← hjoin]
    exact sequence_cons (quantified_escape (by decide) hopens.unquantified) hopens hsequence

/-- A piece before an escaped quote and what is left of a literal. -/
theorem sequence_renderPiece {piece : List Char} (hpiece : '"' ∉ piece) (hs : Opens s)
    (h : Sequence n s (literalOf ('"' :: text)) (')' :: rest)) :
    Opens (renderPiece piece s) ∧
    Sequence n (renderPiece piece s) (literalOf (piece ++ '"' :: text)) (')' :: rest) := by
  by_cases hempty : piece = []
  · rw [hempty]
    exact ⟨hs, h⟩
  · have hjoin : join (literal piece) (literalOf ('"' :: text)) =
        literalOf (piece ++ '"' :: text) := by
      refine join_literalOf rfl ?_
      intro heq
      have hlength := congrArg List.length heq
      have hpos := List.length_pos_iff.2 hempty
      simp at hlength
      omega
    rw [renderPiece_of_ne_nil hempty, ← hjoin]
    exact ⟨opens_cons (by decide), sequence_cons (quantified_quoted hpiece hs.unquantified) hs h⟩

/-- Pieces with escaped quotes between them, before a closing parenthesis. -/
theorem sequence_renderPieces (ps : List (List Char)) (hps : ∀ p ∈ ps, '"' ∉ p)
    (hne : glue ps ≠ []) :
    Opens (renderPieces ps (')' :: rest)) ∧
    Sequence n (renderPieces ps (')' :: rest)) (literalOf (glue ps)) (')' :: rest) := by
  induction ps with
  | nil => exact absurd rfl hne
  | cons p ps ih =>
      have hp := hps p (List.mem_cons_self ..)
      cases ps with
      | nil =>
          have hrender : renderPieces [p] (')' :: rest) = '"' :: (p ++ '"' :: ')' :: rest) :=
            renderPiece_of_ne_nil hne
          have hquantified : Quantified n ('"' :: (p ++ '"' :: ')' :: rest)) (literal p)
              (')' :: rest) := quantified_quoted hp (unquantified_cons (by decide))
          rw [hrender, show glue [p] = p from rfl, literalOf_of_not_mem hp]
          exact ⟨opens_cons (by decide), sequence_of_quantified hquantified (Or.inl rfl)⟩
      | cons q qs =>
          have hescape : Sequence n ('\\' :: '"' :: renderPieces (q :: qs) (')' :: rest))
              (literalOf ('"' :: glue (q :: qs))) (')' :: rest) := by
            apply sequence_escape
            · intro hnil
              rw [glue_eq_nil hnil]
              rfl
            · exact ih fun r hr => hps r (List.mem_cons_of_mem p hr)
          exact sequence_renderPiece hp (opens_cons (by decide)) hescape

theorem quantified_renderLiteral (hrest : Unquantified rest) :
    Quantified n (renderLiteral text rest) (literalOf text) rest := by
  unfold renderLiteral
  by_cases hquote : '"' ∈ text
  · have hne : glue (pieces text) ≠ [] := by
      rw [glue_pieces]
      exact List.ne_nil_of_mem hquote
    obtain ⟨hopens, hsequence⟩ :=
      sequence_renderPieces (pieces text) (not_mem_pieces text) hne
    rw [glue_pieces] at hsequence
    rw [if_pos hquote]
    exact quantified_of_simple
      (simple_group (alternatives_of_sequence hsequence head?_close) hopens) (by decide) hrest
  · rw [if_neg hquote, literalOf_of_not_mem hquote]
    exact quantified_quoted hquote hrest

/-! ## Patterns -/

theorem quantified_renderChar {c : Char} (hrest : Unquantified rest) :
    Quantified n (renderChar c rest) (char c) rest := by
  unfold renderChar
  split
  · next hletter =>
    have hplain : ¬ Special n.extensions c ∧ c ≠ '~' := by
      simp only [Parser.classLetters, List.mem_cons, List.not_mem_nil, or_false] at hletter
      rcases hletter with rfl | rfl | rfl | rfl | rfl | rfl <;> simp [Special]
    exact quantified_of_simple (.plain rest hplain.1) hplain.2 hrest
  · next hletter => exact quantified_escape hletter hrest

/-- A written pattern is read, wherever it stands before a text that does not quantify
it. -/
theorem quantified_render (p : Pattern) (h : p.Writable) (hrest : Unquantified rest) :
    Quantified .full (p.render rest) p.reread rest := by
  have hclose : ∀ t, Unquantified (')' :: t) := fun t => unquantified_cons (by decide)
  induction p generalizing rest with
  | union a b iha ihb =>
      obtain ⟨-, ha, hb⟩ := h
      exact quantified_union (iha ha (unquantified_cons (by decide))) (opens_render a _)
        (ihb hb (hclose rest)) hrest
  | concat a b iha ihb =>
      obtain ⟨-, ha, hb⟩ := h
      have hopens := opens_render b (')' :: rest)
      exact quantified_concat (iha ha hopens.unquantified) (opens_render a _)
        (ihb hb (hclose rest)) hopens hrest
  | inter a b iha ihb =>
      obtain ⟨-, ha, hb⟩ := h
      exact quantified_inter rfl (iha ha (unquantified_cons (by decide))) (opens_render a _)
        (ihb hb (hclose rest)) hrest
  | optional a ih =>
      exact quantified_group (f := .optional) (ih h.2 (hclose _)) (opens_render a _)
        (.optional rest) hrest
  | star a ih =>
      exact quantified_group (f := .star) (ih h.2 (hclose _)) (opens_render a _) (.star rest)
        hrest
  | atLeast min a ih =>
      have hmin : Integer (Decimal.render 0 min ++ ',' :: '}' :: rest) min (',' :: '}' :: rest) :=
        integer_render h.1 (noDigit_cons (by decide))
      exact quantified_group (f := .atLeast min) (ih h.2 (hclose _)) (opens_render a _)
        (.braces (.atLeast hmin)) hrest
  | between min max a ih =>
      obtain ⟨⟨hle, hmax⟩, ha⟩ := h
      have hupper : Integer (Decimal.render 0 max ++ '}' :: rest) max ('}' :: rest) :=
        integer_render hmax (noDigit_cons (by decide))
      have hlower : Integer (Decimal.render 0 min ++ ',' :: (Decimal.render 0 max ++ '}' :: rest))
          min (',' :: (Decimal.render 0 max ++ '}' :: rest)) :=
        integer_render (Nat.lt_of_le_of_lt hle hmax) (noDigit_cons (by decide))
      exact quantified_group (f := .between min max) (ih ha (hclose _)) (opens_render a _)
        (.braces (.between hlower hupper hle)) hrest
  | complement a ih =>
      exact quantified_of_negated
        (.tilde rfl (negated_group (ih h.2 (hclose rest)) (opens_render a _))) hrest
  | char c => exact quantified_renderChar hrest
  | range lo hi =>
      have hitem : Item ('\\' :: lo :: '-' :: '\\' :: hi :: ']' :: rest) (range lo hi)
          (']' :: rest) := .range (.escaped lo _) (by simp) (.escaped hi _)
      exact quantified_of_simple (.bracket (by simp) (.intro hitem (.done _ rest))) (by decide)
        hrest
  | anyChar => exact quantified_of_simple (.anyChar rest) (by decide) hrest
  | anyWord => exact quantified_of_simple (.anyWord rest rfl) (by decide) hrest
  | empty => exact quantified_of_simple (.empty rest rfl) (by decide) hrest
  | literal text => exact quantified_renderLiteral hrest
  | reference name =>
      obtain ⟨hangle, hdash⟩ := h
      have hname : Angle .all name.toList (reference name) := by
        have := Angle.reference (e := .all) rfl hdash
        rwa [String.ofList_toList] at this
      exact quantified_of_simple (.angle rest hangle hname) (by decide) hrest
  | numerals lo hi width =>
      obtain ⟨hle, hlimit, -⟩ := h
      have hrender : (numerals lo hi width).render rest = '<' ::
          ((Decimal.render width lo ++ '-' :: Decimal.render width hi) ++ '>' :: rest) := by
        simp [render]
      rw [hrender]
      exact quantified_of_simple (.angle rest (close_not_mem_numerals lo hi width)
        (angle_numerals hle hlimit)) (by decide) hrest

/-- The text of a pattern is read as the pattern, with neighbouring literals joined and with
the widths that its ranges of numerals were written with. -/
theorem parse_render (p : Pattern) (h : p.Writable) :
    parse .full (p.render []) = .ok p.reread := by
  have hnil : ∀ c ∈ ([] : List Char).head?, c = ')' := by simp
  have hquantified : Quantified .full (p.render []) p.reread [] :=
    quantified_render p h (by intro c hc; cases hc)
  obtain ⟨c, t, heq, -⟩ := opens_render p []
  refine parse_eq_ok_iff.2 (.text ?_ (alternatives_of_quantified hquantified hnil))
  rw [heq]
  exact List.cons_ne_nil c t

end Pattern

end PatternAutomata
