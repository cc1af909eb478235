import PatternAutomata.Proofs.Printing
import PatternAutomata.Proofs.Unambiguity

/-!
# Patterns in parentheses

A text that stands for a pattern stands for the same pattern in parentheses, whatever comes
after them. The grammar looks at the text behind a form only to see that the form goes on no
further, and no form goes on with a closing parenthesis. So text may be added to the end of
a derivation from a closing parenthesis on.

The first character is different. After an opening parenthesis a question mark begins the
flags of a group and a closing parenthesis ends it, while a text of its own may begin with
either of them as a plain character.

## Main results

* `Alternatives.append`: derivations with more text after them.
* `simple_enclose`: a text in parentheses.
* `Pattern.parse_enclose`: texts in parentheses under every operator.
-/

namespace PatternAutomata

namespace Grammar

variable {n : Notation} {s rest : List Char} {p q : Pattern} {x : Char}

/-! ## More text after a form -/

section Append

variable {u : List Char}

theorem forall_head?_append_close {P : Char → Prop} (h : ∀ c ∈ rest.head?, P c)
    (hclose : P ')') : ∀ c ∈ (rest ++ ')' :: u).head?, P c := by
  cases rest with
  | nil =>
      intro c hc
      cases hc
      exact hclose
  | cons c rest => exact h

theorem head?_append_close_ne (h : rest.head? ≠ some x) (hclose : ')' ≠ x) :
    (rest ++ ')' :: u).head? ≠ some x := by
  cases rest with
  | nil =>
      intro heq
      exact hclose (Option.some.inj heq)
  | cons c rest => exact h

theorem Member.append (h : Member s x rest) (u : List Char) : Member (s ++ u) x (rest ++ u) := by
  cases h with
  | bare _ hne => exact .bare (rest ++ u) hne
  | escaped => exact .escaped x (rest ++ u)

theorem Item.append (h : Item s p rest) : Item (s ++ ')' :: u) p (rest ++ ')' :: u) := by
  cases h with
  | single hmember hhead =>
      exact .single (hmember.append _) (head?_append_close_ne hhead (by decide))
  | dash hmember => exact .dash (hmember.append _)
  | range hlo hclose hhi =>
      exact .range (hlo.append _) (head?_append_close_ne hclose (by decide)) (hhi.append _)

theorem Items.append (h : Items s p q rest) : Items (s ++ ')' :: u) p q (rest ++ ')' :: u) := by
  induction h with
  | done p rest => exact .done p _
  | more hclose hitem _ ih =>
      exact .more (head?_append_close_ne hclose (by decide)) hitem.append ih

theorem ClassBody.append (h : ClassBody s p rest) :
    ClassBody (s ++ ')' :: u) p (rest ++ ')' :: u) := by
  cases h with
  | intro hitem hitems => exact .intro hitem.append hitems.append

theorem Integer.append {k : Nat} (h : Integer s k rest) :
    Integer (s ++ ')' :: u) k (rest ++ ')' :: u) := by
  cases h with
  | intro hne hdigits hstop hlimit =>
      rw [List.append_assoc]
      exact .intro hne hdigits (forall_head?_append_close hstop (by decide)) hlimit

theorem Repetition.append {f : Pattern → Pattern} (h : Repetition s f rest) :
    Repetition (s ++ ')' :: u) f (rest ++ ')' :: u) := by
  cases h with
  | exactly hmin => exact .exactly hmin.append
  | atLeast hmin => exact .atLeast hmin.append
  | between hmin hmax horder => exact .between hmin.append hmax.append horder

theorem Quantifier.append {f : Pattern → Pattern} (h : Quantifier s f rest) :
    Quantifier (s ++ ')' :: u) f (rest ++ ')' :: u) := by
  cases h with
  | optional rest => exact .optional _
  | star rest => exact .star _
  | plus rest => exact .plus _
  | braces hrepetition => exact .braces hrepetition.append

theorem Quantifiers.append (h : Quantifiers s p q rest) :
    Quantifiers (s ++ ')' :: u) p q (rest ++ ')' :: u) := by
  induction h with
  | done p hsign => exact .done p (forall_head?_append_close hsign (by decide))
  | more hquantifier _ ih => exact .more hquantifier.append ih

theorem GroupStart.append (h : GroupStart s rest) :
    GroupStart (s ++ ')' :: u) (rest ++ ')' :: u) := by
  cases h with
  | none hhead => exact .none (head?_append_close_ne hhead (by decide))
  | flags hfs hstop hcolon =>
      rw [List.cons_append, List.append_assoc]
      exact .flags hfs (forall_head?_append_close hstop (by decide))
        (head?_append_close_ne hcolon (by decide))
  | flagsColon hfs =>
      rw [List.cons_append, List.append_assoc]
      exact .flagsColon hfs

theorem ends_close (e : Extensions) : Ends e ')' := Or.inl rfl

mutual

/-- A derivation with more text from a closing parenthesis on. -/
theorem Alternatives.append {s rest : List Char} {p : Pattern} :
    Alternatives n s p rest → Alternatives n (s ++ ')' :: u) p (rest ++ ')' :: u)
  | .last h hbar => .last h.append (head?_append_close_ne hbar (by decide))
  | .more h h' => .more h.append h'.append

theorem Conjunction.append {s rest : List Char} {p : Pattern} :
    Conjunction n s p rest → Conjunction n (s ++ ')' :: u) p (rest ++ ')' :: u)
  | .last h hmark => .last h.append fun hon => head?_append_close_ne (hmark hon) (by decide)
  | .more hon h h' => .more hon h.append h'.append

theorem Sequence.append {s rest : List Char} {p : Pattern} :
    Sequence n s p rest → Sequence n (s ++ ')' :: u) p (rest ++ ')' :: u)
  | .last h hends => .last h.append (forall_head?_append_close hends (ends_close _))
  | .more h hends h' => .more h.append hends h'.append

theorem Quantified.append {s rest : List Char} {p : Pattern} :
    Quantified n s p rest → Quantified n (s ++ ')' :: u) p (rest ++ ')' :: u)
  | .intro h h' => .intro h.append h'.append

theorem Negated.append {s rest : List Char} {p : Pattern} :
    Negated n s p rest → Negated n (s ++ ')' :: u) p (rest ++ ')' :: u)
  | .tilde hon h => .tilde hon h.append
  | .bare hhead h => .bare (fun hon => head?_append_close_ne (hhead hon) (by decide)) h.append

theorem Simple.append {s rest : List Char} {p : Pattern} :
    Simple n s p rest → Simple n (s ++ ')' :: u) p (rest ++ ')' :: u)
  | .bracket hhead h => .bracket (head?_append_close_ne hhead (by decide)) h.append
  | .negatedBracket h => .negatedBracket h.append
  | .anyChar _ => .anyChar _
  | .empty _ hon => .empty _ hon
  | .anyWord _ hon => .anyWord _ hon
  | .quoted rest htext => by
      rw [List.cons_append, List.append_assoc]
      exact .quoted _ htext
  | .emptyGroup h => .emptyGroup h.append
  | .group (t := t) h hhead h' => by
      refine .group h.append ?_ h'.append
      -- the added text must not close the group before its body has begun
      cases t with
      | nil => exact absurd h' not_alternatives_nil
      | cons c t => exact hhead
  | .angle rest htext h => by
      rw [List.cons_append, List.append_assoc]
      exact .angle _ htext h
  | .classEscape _ hletter => .classEscape _ hletter
  | .escape _ hletter => .escape _ hletter
  | .plain _ hplain => .plain _ hplain

end

end Append

end Grammar

namespace Pattern

open Grammar

variable {n : Notation} {s t u : List Char} {p q : Pattern}

/-! ## A text in parentheses -/

/-- The text in parentheses. -/
def enclose (s : List Char) : List Char := '(' :: (s ++ [')'])

/-- In parentheses the text begins neither flags nor the end of the group. -/
def Enclosable (s : List Char) : Prop := ∀ c ∈ s.head?, c ≠ '?' ∧ c ≠ ')'

theorem enclose_append (s u : List Char) : enclose s ++ u = '(' :: (s ++ ')' :: u) := by
  simp [enclose]

/-- A text in parentheses stands for what the text stands for, whatever follows. -/
theorem simple_enclose (h : Reads n s p) (hs : Enclosable s) (u : List Char) :
    Simple n (enclose s ++ u) p u := by
  rw [enclose_append]
  rcases reads_iff.1 h with ⟨rfl, rfl⟩ | hbody
  · exact .emptyGroup (.none (by simp))
  · have hflags : s.head? ≠ some '?' := fun heq => (hs _ heq).1 rfl
    have hclose : s.head? ≠ some ')' := fun heq => (hs _ heq).2 rfl
    have hne : s ≠ [] := by
      rintro rfl
      exact not_alternatives_nil hbody
    obtain ⟨c, t, rfl⟩ := List.exists_cons_of_ne_nil hne
    exact .group (.none hflags) hclose hbody.append

theorem quantified_enclose (h : Reads n s p) (hs : Enclosable s) (hu : Unquantified u) :
    Quantified n (enclose s ++ u) p u :=
  quantified_of_negated (negated_of_simple (simple_enclose h hs u) (by decide)) hu

theorem unquantified_nil : Unquantified [] := by
  intro c hc
  cases hc

theorem sequence_enclose (h : Reads n s p) (hs : Enclosable s)
    (hends : ∀ c ∈ u.head?, Ends n.extensions c) : Sequence n (enclose s ++ u) p u := by
  refine .last (quantified_enclose h hs ?_) hends
  intro c hc hsign
  simp only [quantifierSigns, List.mem_cons, List.not_mem_nil, or_false] at hsign
  rcases hends c hc with rfl | rfl | ⟨rfl, -⟩ <;> simp at hsign

/-- A derivation of a whole text that has a first character. -/
theorem parse_of_alternatives (h : Alternatives n s p []) : parse n s = .ok p :=
  parse_eq_ok_iff.2 (reads_iff.2 (Or.inr h))

theorem parse_of_sequence (h : Sequence n s p []) : parse n s = .ok p :=
  parse_of_alternatives (alternatives_of_sequence h (by simp))

theorem parse_of_quantified (h : Quantified n s p []) : parse n s = .ok p :=
  parse_of_alternatives (alternatives_of_quantified h (by simp))

/-! ## Parentheses under the operators -/

/-- A text in parentheses with a quantifier. -/
theorem parse_enclose_quantifier {f : Pattern → Pattern} (h : Reads n s p) (hs : Enclosable s)
    (hquantifier : Quantifier u f []) : parse n (enclose s ++ u) = .ok (f p) := by
  have hbody := negated_of_simple (simple_enclose h hs u) (by decide)
  exact parse_of_quantified (.intro hbody (.more hquantifier (.done _ unquantified_nil)))

/-- Counts in braces, written with any number of zeros in front. -/
theorem parse_enclose_counts (h : Reads n s p) (hs : Enclosable s) (width width' : Nat)
    {min max : Nat} (hle : min ≤ max) (hmax : max < Cursor.integerLimit) :
    parse n (enclose s ++ '{' :: (Decimal.render width min ++ ['}'])) = .ok (between min min p) ∧
    parse n (enclose s ++ '{' :: (Decimal.render width min ++ [',', '}'])) =
      .ok (atLeast min p) ∧
    parse n (enclose s ++
        '{' :: (Decimal.render width min ++ ',' :: (Decimal.render width' max ++ ['}']))) =
      .ok (between min max p) := by
  have hmin : min < Cursor.integerLimit := Nat.lt_of_le_of_lt hle hmax
  have hlower : ∀ c t, CharClass.isDigit c = false →
      Integer (Decimal.render width min ++ c :: t) min (c :: t) :=
    fun c t hc => integer_render hmin (noDigit_cons hc)
  have hupper : Integer (Decimal.render width' max ++ ['}']) max ['}'] :=
    integer_render hmax (noDigit_cons (by decide))
  have hexactly : Repetition (Decimal.render width min ++ ['}']) (.between min min) [] :=
    .exactly (hlower _ _ (by decide))
  have hatLeast : Repetition (Decimal.render width min ++ [',', '}']) (.atLeast min) [] :=
    .atLeast (hlower _ _ (by decide))
  have hbetween : Repetition
      (Decimal.render width min ++ ',' :: (Decimal.render width' max ++ ['}']))
      (.between min max) [] := .between (hlower _ _ (by decide)) hupper hle
  exact ⟨parse_enclose_quantifier h hs (.braces hexactly),
    parse_enclose_quantifier h hs (.braces hatLeast),
    parse_enclose_quantifier h hs (.braces hbetween)⟩

/-- Two texts in parentheses with nothing, a bar or an ampersand between them. -/
theorem parse_enclose_pair (hp : Reads n s p) (hs : Enclosable s) (hq : Reads n t q)
    (ht : Enclosable t) :
    parse n (enclose s ++ enclose t) = .ok (join p q) ∧
    parse n (enclose s ++ '|' :: enclose t) = .ok (union p q) ∧
    (n.extensions.intersection = true →
      parse n (enclose s ++ '&' :: enclose t) = .ok (inter p q)) := by
  have hsecond : Sequence n (enclose t) q [] := by
    have h := sequence_enclose hq ht (u := []) (by simp)
    rwa [List.append_nil] at h
  have hfirst : ∀ c, Ends n.extensions c →
      Sequence n (enclose s ++ c :: enclose t) p (c :: enclose t) := by
    intro c hc
    refine sequence_enclose hp hs ?_
    intro x hx
    cases hx
    exact hc
  refine ⟨?_, ?_, ?_⟩
  · have hopens : Opens (enclose t) := opens_cons (by decide)
    have hbody := quantified_enclose hp hs hopens.unquantified
    exact parse_of_sequence (sequence_cons hbody hopens hsecond)
  · have hconjunction := Conjunction.last (hfirst '|' (Or.inr (Or.inl rfl))) (by simp)
    exact parse_of_alternatives
      (.more hconjunction (alternatives_of_sequence hsecond (by simp)))
  · intro hon
    have hconjunction := Conjunction.more hon (hfirst '&' (Or.inr (Or.inr ⟨rfl, hon⟩)))
      (.last hsecond (by simp))
    exact parse_of_alternatives (.last hconjunction (by simp))

/-- Texts that stand for patterns do so in parentheses, under every operator of the
notation. -/
theorem parse_enclose (n : Notation) (s t : List Char) (p q : Pattern)
    (hp : parse n s = .ok p) (hq : parse n t = .ok q) (hs : Enclosable s) (ht : Enclosable t) :
    parse n (enclose s) = .ok p ∧
    (parse n (enclose s ++ enclose t) = .ok (join p q) ∧
      parse n (enclose s ++ '|' :: enclose t) = .ok (union p q) ∧
      (n.extensions.intersection = true →
        parse n (enclose s ++ '&' :: enclose t) = .ok (inter p q))) ∧
    (n.extensions.complement = true → parse n ('~' :: enclose s) = .ok (complement p)) ∧
    parse n (enclose s ++ ['?']) = .ok (optional p) ∧
    parse n (enclose s ++ ['*']) = .ok (star p) ∧
    parse n (enclose s ++ ['+']) = .ok (atLeast 1 p) ∧
    ∀ width width' min max, min ≤ max → max < Cursor.integerLimit →
      parse n (enclose s ++ '{' :: (Decimal.render width min ++ ['}'])) =
        .ok (between min min p) ∧
      parse n (enclose s ++ '{' :: (Decimal.render width min ++ [',', '}'])) =
        .ok (atLeast min p) ∧
      parse n (enclose s ++
          '{' :: (Decimal.render width min ++ ',' :: (Decimal.render width' max ++ ['}']))) =
        .ok (between min max p) := by
  have hp := parse_eq_ok_iff.1 hp
  have hq := parse_eq_ok_iff.1 hq
  have hbody : Negated n (enclose s) p [] := by
    have h : Negated n (enclose s ++ []) p [] :=
      negated_of_simple (simple_enclose hp hs []) (by decide)
    rwa [List.append_nil] at h
  refine ⟨?_, parse_enclose_pair hp hs hq ht, ?_, ?_, ?_, ?_, ?_⟩
  · exact parse_of_quantified (quantified_of_negated hbody unquantified_nil)
  · intro hon
    exact parse_of_quantified (quantified_of_negated (.tilde hon hbody) unquantified_nil)
  · exact parse_enclose_quantifier hp hs (.optional [])
  · exact parse_enclose_quantifier hp hs (.star [])
  · exact parse_enclose_quantifier hp hs (.plus [])
  · intro width width' min max hle hmax
    exact parse_enclose_counts hp hs width width' hle hmax

/-- Flags and nothing else, a class escape, and a closing parenthesis as a plain character. -/
def bareClose : List Char := "(?i)\\d|)".toList

/-- What that text stands for. -/
def bareCloseRead : Pattern := .union (.concat (.literal []) (.range '0' '9')) (.char ')')

theorem parse_enclose_bareClose :
    parse .full bareClose = .ok bareCloseRead ∧ parse .full [] = .ok (.literal []) ∧
    Enclosable bareClose ∧ Enclosable [] ∧
    parse .full (enclose bareClose ++ enclose []) = .ok (.concat bareCloseRead (.literal [])) ∧
    parse .full (enclose bareClose ++ '&' :: enclose []) =
      .ok (.inter bareCloseRead (.literal [])) := by
  have hp : parse .full bareClose = .ok bareCloseRead := by decide +kernel
  have hq : parse .full [] = .ok (.literal []) := rfl
  have hs : Enclosable bareClose := by
    intro c hc
    cases hc
    decide
  have ht : Enclosable [] := by
    intro c hc
    cases hc
  obtain ⟨-, ⟨hjoin, -, hinter⟩, -⟩ := parse_enclose .full bareClose [] _ _ hp hq hs ht
  exact ⟨hp, hq, hs, ht, hjoin, hinter rfl⟩

end Pattern

end PatternAutomata
