import PatternAutomata.Proofs.Consumption
import PatternAutomata.Proofs.Unambiguity

/-!
# Forms that are off and characters that are escaped

A character that announces a form of an extension stands for itself in two cases: the
extension is off, or a backslash stands before the character. Both come to the same. A text
is read without some extensions as the text with a backslash before each of their characters
is read with them.

This holds of texts in which a backslash can be put before any character. Quotes and classes
are ruled out, where a backslash is a character of its own or does nothing, as are names and
ranges in angle brackets, unless the extensions that go are theirs.

A derivation of the one text is taken to a derivation of the other, rule by rule, in both
directions. The rules look at the next character, which is the same or has become a
backslash, and a backslash neither ends a form nor makes one go on.

## Main results

* `Alternatives.escaped`, `Alternatives.of_escape`: derivations of the two texts.
* `Pattern.parse_inter_invert_iff`: the readings of the two texts.
-/

namespace PatternAutomata

namespace Extensions

variable {d e : Extensions} {c x : Char} {s t u rest : List Char}

/-- The characters that announce the forms of the extensions. -/
def announcers : List Char := ['&', '~', '#', '@', '<']

/-- The character announces a form of one of the extensions. The opening angle bracket
belongs to two extensions, and counts if both are in the set. -/
def announces (e : Extensions) (c : Char) : Bool :=
  (c == '&' && e.intersection) || (c == '~' && e.complement) || (c == '#' && e.empty) ||
    (c == '@' && e.anyWord) || (c == '<' && e.reference && e.numerals)

/-- The text with a backslash before each character that announces a form. -/
def escape (e : Extensions) (s : List Char) : List Char :=
  s.flatMap fun c => if e.announces c then ['\\', c] else [c]

/-- The text has no quotes, classes or backslashes, and no opening angle brackets unless the
extensions that they belong to are in the set. -/
def Escapable (e : Extensions) (s : List Char) : Prop :=
  '"' ∉ s ∧ '[' ∉ s ∧ '\\' ∉ s ∧ ('<' ∈ s → e.reference = true ∧ e.numerals = true)

theorem Escapable.suffix (h : e.Escapable s) (ht : t <:+ s) : e.Escapable t := by
  obtain ⟨hquote, hclass, hbackslash, hangle⟩ := h
  exact ⟨fun hmem => hquote (ht.mem hmem), fun hmem => hclass (ht.mem hmem),
    fun hmem => hbackslash (ht.mem hmem), fun hmem => hangle (ht.mem hmem)⟩

theorem Escapable.tail (h : e.Escapable (c :: s)) : e.Escapable s := h.suffix (List.suffix_cons _ _)

/-! ## One character after the other -/

theorem announces_iff : e.announces c = true ↔
    (c = '&' ∧ e.intersection = true) ∨ (c = '~' ∧ e.complement = true) ∨
      (c = '#' ∧ e.empty = true) ∨ (c = '@' ∧ e.anyWord = true) ∨
      (c = '<' ∧ e.reference = true ∧ e.numerals = true) := by
  simp only [announces, Bool.or_eq_true, Bool.and_eq_true, beq_iff_eq, or_assoc, and_assoc]

theorem mem_announcers (h : e.announces c = true) : c ∈ announcers := by
  rcases announces_iff.1 h with ⟨rfl, -⟩ | ⟨rfl, -⟩ | ⟨rfl, -⟩ | ⟨rfl, -⟩ | ⟨rfl, -⟩ <;> decide

theorem announces_eq_false (h : c ∉ announcers) : e.announces c = false :=
  Bool.eq_false_iff.2 fun hc => h (mem_announcers hc)

theorem escape_cons (h : e.announces c = false) : e.escape (c :: s) = c :: e.escape s := by
  simp [escape, h]

theorem escape_cons_of_announces (h : e.announces c = true) :
    e.escape (c :: s) = '\\' :: c :: e.escape s := by
  simp [escape, h]

/-- A character that announces no form of any extension. -/
theorem escape_plain (h : c ∉ announcers) : e.escape (c :: s) = c :: e.escape s :=
  escape_cons (announces_eq_false h)

/-- A run of characters with a property that backslashes do not have, nor any characters that
announce a form. -/
theorem escape_append {P : Char → Prop} (hP : ∀ c ∈ '\\' :: announcers, ¬ P c)
    (h : ∀ c ∈ s, P c) : e.escape (s ++ t) = s ++ e.escape t := by
  induction s with
  | nil => rfl
  | cons c s ih =>
      have hc : c ∉ announcers := fun hmem =>
        hP c (List.mem_cons_of_mem _ hmem) (h c (List.mem_cons_self ..))
      rw [List.cons_append, escape_plain hc, ih fun x hx => h x (List.mem_cons_of_mem _ hx),
        List.cons_append]

theorem head?_escape_iff (hx : x ≠ '\\') :
    (e.escape s).head? = some x ↔ s.head? = some x ∧ e.announces x = false := by
  cases s with
  | nil => simp [escape]
  | cons c s =>
      cases hc : e.announces c with
      | false =>
          rw [escape_cons hc, List.head?_cons, List.head?_cons, Option.some.injEq]
          constructor
          · rintro rfl
            exact ⟨rfl, hc⟩
          · exact fun h => h.1
      | true =>
          rw [escape_cons_of_announces hc, List.head?_cons, List.head?_cons, Option.some.injEq,
            Option.some.injEq]
          constructor
          · exact fun h => absurd h.symm hx
          · rintro ⟨rfl, hfalse⟩
            rw [hc] at hfalse
            cases hfalse

/-- For a character that announces no form, the one text begins with it if the other does. -/
theorem head?_escape_plain_iff (hx : x ∉ '\\' :: announcers) :
    (e.escape s).head? = some x ↔ s.head? = some x := by
  rw [List.mem_cons, not_or] at hx
  rw [head?_escape_iff hx.1]
  exact and_iff_left (announces_eq_false hx.2)

/-- A condition that a backslash meets, and every character that announces a form, is met by
the next character before and after. -/
theorem forall_head?_escape_iff {P : Char → Prop} (hP : ∀ c ∈ '\\' :: announcers, P c) :
    (∀ c ∈ (e.escape s).head?, P c) ↔ ∀ c ∈ s.head?, P c := by
  cases s with
  | nil => rfl
  | cons c s =>
      cases hc : e.announces c with
      | false =>
          rw [escape_cons hc]
          rfl
      | true =>
          rw [escape_cons_of_announces hc]
          refine iff_of_true ?_ ?_
          · intro x hx
            cases hx
            exact hP _ (List.mem_cons_self ..)
          · intro x hx
            cases hx
            exact hP _ (List.mem_cons_of_mem _ (mem_announcers hc))

theorem eq_cons_of_escape (h : x :: t = e.escape s) (hx : x ≠ '\\') :
    ∃ r, s = x :: r ∧ t = e.escape r ∧ e.announces x = false := by
  have hhead : (e.escape s).head? = some x := by rw [← h]; rfl
  obtain ⟨hs, hannounces⟩ := (head?_escape_iff hx).1 hhead
  obtain ⟨r, rfl⟩ := List.head?_eq_some_iff.1 hs
  rw [escape_cons hannounces] at h
  exact ⟨r, rfl, (List.cons.inj h).2, hannounces⟩

theorem eq_append_of_escape {P : Char → Prop} (hP : ∀ c ∈ '\\' :: announcers, ¬ P c)
    (hu : ∀ c ∈ u, P c) (h : u ++ t = e.escape s) : ∃ r, s = u ++ r ∧ t = e.escape r := by
  induction u generalizing s with
  | nil => exact ⟨s, rfl, h⟩
  | cons x u ih =>
      have hx : x ≠ '\\' := fun heq =>
        hP x (heq ▸ List.mem_cons_self ..) (hu x (List.mem_cons_self ..))
      obtain ⟨r, rfl, hr, -⟩ := eq_cons_of_escape h hx
      obtain ⟨r, rfl, ht⟩ := ih (fun c hc => hu c (List.mem_cons_of_mem _ hc)) hr
      exact ⟨r, rfl, ht⟩

@[simp] theorem escape_eq_nil_iff : e.escape s = [] ↔ s = [] := by
  constructor
  · intro h
    cases s with
    | nil => rfl
    | cons c s =>
        cases hc : e.announces c with
        | false => simp [escape_cons hc] at h
        | true => simp [escape_cons_of_announces hc] at h
  · rintro rfl
    rfl

/-- A backslash in the new text stands before a character that announces a form. -/
theorem eq_cons_of_escape_backslash (h : '\\' :: t = e.escape s) (hs : e.Escapable s) :
    ∃ c r, s = c :: r ∧ t = c :: e.escape r ∧ e.announces c = true := by
  cases s with
  | nil => cases h
  | cons c r =>
      cases hc : e.announces c with
      | false =>
          rw [escape_cons hc] at h
          exact absurd ((List.cons.inj h).1 ▸ List.mem_cons_self ..) hs.2.2.1
      | true =>
          rw [escape_cons_of_announces hc] at h
          exact ⟨c, r, rfl, (List.cons.inj h).2, hc⟩

end Extensions

namespace Grammar

open Extensions

variable {d e : Extensions} {alphabet : Option Alphabet} {s t u rest : List Char}
  {p q : Pattern} {x : Char}

/-! ## What the next character means -/

@[simp] theorem intersection_inter_invert : (e.inter d.invert).intersection = true ↔
    e.intersection = true ∧ d.announces '&' = false := by
  simp [inter, invert, zipWith, announces]

@[simp] theorem complement_inter_invert : (e.inter d.invert).complement = true ↔
    e.complement = true ∧ d.announces '~' = false := by
  simp [inter, invert, zipWith, announces]

@[simp] theorem empty_inter_invert : (e.inter d.invert).empty = true ↔
    e.empty = true ∧ d.announces '#' = false := by
  simp [inter, invert, zipWith, announces]

@[simp] theorem anyWord_inter_invert : (e.inter d.invert).anyWord = true ↔
    e.anyWord = true ∧ d.announces '@' = false := by
  simp [inter, invert, zipWith, announces]

theorem not_ends_of_announces (h : d.announces x = true) : ¬ Ends (e.inter d.invert) x := by
  rcases announces_iff.1 h with ⟨rfl, h⟩ | ⟨rfl, -⟩ | ⟨rfl, -⟩ | ⟨rfl, -⟩ | ⟨rfl, -⟩ <;>
    simp [Ends, inter, invert, zipWith, *]

theorem ends_inter_invert_iff (h : d.announces x = false) :
    Ends (e.inter d.invert) x ↔ Ends e x := by
  have hmark : x = '&' → d.intersection = false := by
    rintro rfl
    simpa [announces] using h
  simp only [Ends, inter, invert, zipWith, Bool.and_eq_true, Bool.not_eq_true']
  grind

/-- The one text ends a sequence where the other does. -/
theorem forall_ends_escape_iff : (∀ c ∈ (d.escape s).head?, Ends e c) ↔
    ∀ c ∈ s.head?, Ends (e.inter d.invert) c := by
  cases s with
  | nil => simp [Extensions.escape]
  | cons c s =>
      cases hc : d.announces c with
      | false => simp [escape_cons hc, ends_inter_invert_iff hc]
      | true =>
          have hbackslash : ¬ Ends e '\\' := by simp [Ends]
          simp [escape_cons_of_announces hc, not_ends_of_announces hc, hbackslash]

theorem not_special_of_announces (h : d.announces x = true) :
    ¬ Special (e.inter d.invert) x := by
  rcases announces_iff.1 h with ⟨rfl, h⟩ | ⟨rfl, h⟩ | ⟨rfl, h⟩ | ⟨rfl, h⟩ | ⟨rfl, h, h'⟩ <;>
    simp [Special, inter, invert, zipWith, *]

theorem special_inter_invert_iff (h : d.announces x = false) (hx : d.Escapable (x :: s)) :
    Special (e.inter d.invert) x ↔ Special e x := by
  have hangle : x ≠ '<' := by
    rintro rfl
    have hon := hx.2.2.2 (List.mem_cons_self ..)
    simp [announces, hon] at h
  have hoff : (x = '#' → d.empty = false) ∧ (x = '@' → d.anyWord = false) ∧
      (x = '~' → d.complement = false) := by
    refine ⟨?_, ?_, ?_⟩ <;> rintro rfl <;> simpa [announces] using h
  simp only [Special, inter, invert, zipWith, Bool.and_eq_true, Bool.not_eq_true']
  grind

theorem not_mem_classLetters : ∀ c ∈ announcers, c ∉ Pattern.Parser.classLetters := by
  simp [announcers, Pattern.Parser.classLetters]

/-! ## Numbers, quantifiers and the beginning of a group

Neither a backslash nor a character that announces a form goes on with any of these. -/

theorem isDigit_eq_false_of_mem : ∀ c ∈ '\\' :: announcers, CharClass.isDigit c = false := by
  simp [announcers, CharClass.isDigit]

theorem not_mem_groupFlags :
    ∀ c ∈ '\\' :: announcers, ¬ c ∈ Pattern.Parser.groupFlags := by
  simp [announcers, Pattern.Parser.groupFlags]

theorem not_mem_quantifierSigns : ∀ c ∈ '\\' :: announcers, ¬ c ∈ quantifierSigns := by
  simp [announcers, quantifierSigns]

theorem Integer.escaped {k : Nat} (h : Integer s k rest) :
    Integer (d.escape s) k (d.escape rest) := by
  cases h with
  | intro hne hdigits hstop hlimit =>
      rw [escape_append (fun c hc => Bool.eq_false_iff.1 (isDigit_eq_false_of_mem c hc)) hdigits]
      exact .intro hne hdigits ((forall_head?_escape_iff isDigit_eq_false_of_mem).2 hstop) hlimit

theorem Integer.of_escape {k : Nat} (h : Integer (d.escape s) k u) :
    ∃ t, u = d.escape t ∧ Integer s k t := by
  obtain ⟨ds, hs, rfl, hne, hdigits, hstop, hlimit⟩ := integer_iff.1 h
  obtain ⟨t, rfl, rfl⟩ := eq_append_of_escape
    (fun c hc => Bool.eq_false_iff.1 (isDigit_eq_false_of_mem c hc)) hdigits hs.symm
  exact ⟨t, rfl, .intro hne hdigits
    ((forall_head?_escape_iff isDigit_eq_false_of_mem).1 hstop) hlimit⟩

theorem Repetition.escaped {f : Pattern → Pattern} (h : Repetition s f rest) :
    Repetition (d.escape s) f (d.escape rest) := by
  have hbrace : ∀ t, d.escape ('}' :: t) = '}' :: d.escape t := fun t => escape_plain (by decide)
  have hcomma : ∀ t, d.escape (',' :: t) = ',' :: d.escape t := fun t => escape_plain (by decide)
  cases h with
  | exactly hmin =>
      have hmin := hmin.escaped (d := d)
      rw [hbrace] at hmin
      exact .exactly hmin
  | atLeast hmin =>
      have hmin := hmin.escaped (d := d)
      rw [hcomma, hbrace] at hmin
      exact .atLeast hmin
  | between hmin hmax horder =>
      have hmin := hmin.escaped (d := d)
      have hmax := hmax.escaped (d := d)
      rw [hcomma] at hmin
      rw [hbrace] at hmax
      exact .between hmin hmax horder

theorem Repetition.of_escape {f : Pattern → Pattern} (h : Repetition (d.escape s) f u) :
    ∃ t, u = d.escape t ∧ Repetition s f t := by
  cases h with
  | exactly hmin =>
      obtain ⟨r, hr, hfirst⟩ := hmin.of_escape
      obtain ⟨t, rfl, rfl, -⟩ := eq_cons_of_escape hr (by decide)
      exact ⟨t, rfl, .exactly hfirst⟩
  | atLeast hmin =>
      obtain ⟨r, hr, hfirst⟩ := hmin.of_escape
      obtain ⟨r, rfl, hr, -⟩ := eq_cons_of_escape hr (by decide)
      obtain ⟨t, rfl, rfl, -⟩ := eq_cons_of_escape hr (by decide)
      exact ⟨t, rfl, .atLeast hfirst⟩
  | between hmin hmax horder =>
      obtain ⟨r, hr, hfirst⟩ := hmin.of_escape
      obtain ⟨r, rfl, rfl, -⟩ := eq_cons_of_escape hr (by decide)
      obtain ⟨r, hr, hsecond⟩ := hmax.of_escape
      obtain ⟨t, rfl, rfl, -⟩ := eq_cons_of_escape hr (by decide)
      exact ⟨t, rfl, .between hfirst hsecond horder⟩

theorem Quantifier.escaped {f : Pattern → Pattern} (h : Quantifier s f rest) :
    Quantifier (d.escape s) f (d.escape rest) := by
  cases h with
  | optional => rw [escape_plain (by decide)]; exact .optional _
  | star => rw [escape_plain (by decide)]; exact .star _
  | plus => rw [escape_plain (by decide)]; exact .plus _
  | braces hrepetition => rw [escape_plain (by decide)]; exact .braces hrepetition.escaped

theorem Quantifier.of_escape {f : Pattern → Pattern} (h : Quantifier u f rest)
    (hu : u = d.escape s) : ∃ t, rest = d.escape t ∧ Quantifier s f t := by
  cases h with
  | optional =>
      obtain ⟨t, rfl, rfl, -⟩ := eq_cons_of_escape hu (by decide)
      exact ⟨t, rfl, .optional t⟩
  | star =>
      obtain ⟨t, rfl, rfl, -⟩ := eq_cons_of_escape hu (by decide)
      exact ⟨t, rfl, .star t⟩
  | plus =>
      obtain ⟨t, rfl, rfl, -⟩ := eq_cons_of_escape hu (by decide)
      exact ⟨t, rfl, .plus t⟩
  | braces hrepetition =>
      obtain ⟨r, rfl, rfl, -⟩ := eq_cons_of_escape hu (by decide)
      obtain ⟨t, rfl, hbounds⟩ := hrepetition.of_escape
      exact ⟨t, rfl, .braces hbounds⟩

theorem Quantifiers.escaped (h : Quantifiers s p q rest) :
    Quantifiers (d.escape s) p q (d.escape rest) := by
  induction h with
  | done p hsign => exact .done p ((forall_head?_escape_iff not_mem_quantifierSigns).2 hsign)
  | more hquantifier _ ih => exact .more hquantifier.escaped ih

theorem Quantifiers.of_escape (h : Quantifiers u p q rest) (hu : u = d.escape s) :
    ∃ t, rest = d.escape t ∧ Quantifiers s p q t := by
  induction h generalizing s with
  | done p hsign =>
      subst hu
      exact ⟨s, rfl, .done p ((forall_head?_escape_iff not_mem_quantifierSigns).1 hsign)⟩
  | more hquantifier _ ih =>
      obtain ⟨r, rfl, hfirst⟩ := hquantifier.of_escape hu
      obtain ⟨t, rfl, hmore⟩ := ih rfl
      exact ⟨t, rfl, .more hfirst hmore⟩

theorem GroupStart.escaped (h : GroupStart s rest) :
    GroupStart (d.escape s) (d.escape rest) := by
  cases h with
  | none hhead => exact .none fun heq => hhead ((head?_escape_plain_iff (by decide)).1 heq)
  | flags hfs hstop hcolon =>
      rw [escape_plain (by decide), escape_append not_mem_groupFlags hfs]
      exact .flags hfs ((forall_head?_escape_iff not_mem_groupFlags).2 hstop)
        fun heq => hcolon ((head?_escape_plain_iff (by decide)).1 heq)
  | flagsColon hfs =>
      rw [escape_plain (by decide), escape_append not_mem_groupFlags hfs, escape_plain (by decide)]
      exact .flagsColon hfs

theorem GroupStart.of_escape (h : GroupStart u rest) (hu : u = d.escape s) :
    ∃ t, rest = d.escape t ∧ GroupStart s t := by
  cases h with
  | none hhead =>
      subst hu
      exact ⟨s, rfl, .none fun heq => hhead ((head?_escape_plain_iff (by decide)).2 heq)⟩
  | flags hfs hstop hcolon =>
      obtain ⟨r, rfl, hr, -⟩ := eq_cons_of_escape hu (by decide)
      obtain ⟨t, rfl, rfl⟩ := eq_append_of_escape not_mem_groupFlags hfs hr
      refine ⟨t, rfl, .flags hfs ((forall_head?_escape_iff not_mem_groupFlags).1 hstop) ?_⟩
      exact fun heq => hcolon ((head?_escape_plain_iff (by decide)).2 heq)
  | flagsColon hfs =>
      obtain ⟨r, rfl, hr, -⟩ := eq_cons_of_escape hu (by decide)
      obtain ⟨r, rfl, hcolon⟩ := eq_append_of_escape not_mem_groupFlags hfs hr
      obtain ⟨t, rfl, rfl, -⟩ := eq_cons_of_escape hcolon (by decide)
      exact ⟨t, rfl, .flagsColon hfs⟩

/-! ## The levels -/

section Levels

mutual

theorem Alternatives.escaped {s rest : List Char} {p : Pattern} :
    Alternatives ⟨e.inter d.invert, alphabet⟩ s p rest → d.Escapable s →
      Alternatives ⟨e, alphabet⟩ (d.escape s) p (d.escape rest)
  | .last h hbar, hs =>
    .last (h.escaped hs) fun heq => hbar ((head?_escape_plain_iff (by decide)).1 heq)
  | .more h h', hs => by
    have hfirst := h.escaped hs
    rw [escape_plain (by decide)] at hfirst
    exact .more hfirst (h'.escaped (hs.suffix h.consumes.suffix).tail)

theorem Conjunction.escaped {s rest : List Char} {p : Pattern} :
    Conjunction ⟨e.inter d.invert, alphabet⟩ s p rest → d.Escapable s →
      Conjunction ⟨e, alphabet⟩ (d.escape s) p (d.escape rest)
  | .last h hmark, hs => by
    refine .last (h.escaped hs) fun hon heq => ?_
    obtain ⟨hhead, hoff⟩ := (head?_escape_iff (by decide)).1 heq
    exact hmark (intersection_inter_invert.2 ⟨hon, hoff⟩) hhead
  | .more hon h h', hs => by
    obtain ⟨hon, hoff⟩ := intersection_inter_invert.1 hon
    have hfirst := h.escaped hs
    rw [escape_cons hoff] at hfirst
    exact .more hon hfirst (h'.escaped (hs.suffix h.consumes.suffix).tail)

theorem Sequence.escaped {s rest : List Char} {p : Pattern} :
    Sequence ⟨e.inter d.invert, alphabet⟩ s p rest → d.Escapable s →
      Sequence ⟨e, alphabet⟩ (d.escape s) p (d.escape rest)
  | .last h hends, hs => .last (h.escaped hs) (forall_ends_escape_iff.2 hends)
  | .more (c := c) (t := t) h hends h', hs => by
    have hfirst := h.escaped hs
    have hsecond := h'.escaped (hs.suffix h.consumes.suffix)
    cases hc : d.announces c with
    | false =>
        rw [escape_cons hc] at hfirst hsecond
        exact .more hfirst (fun h => hends ((ends_inter_invert_iff hc).2 h)) hsecond
    | true =>
        rw [escape_cons_of_announces hc] at hfirst hsecond
        exact .more hfirst (by simp [Ends]) hsecond

theorem Quantified.escaped {s rest : List Char} {p : Pattern} :
    Quantified ⟨e.inter d.invert, alphabet⟩ s p rest → d.Escapable s →
      Quantified ⟨e, alphabet⟩ (d.escape s) p (d.escape rest)
  | .intro h h', hs => .intro (h.escaped hs) h'.escaped

theorem Negated.escaped {s rest : List Char} {p : Pattern} :
    Negated ⟨e.inter d.invert, alphabet⟩ s p rest → d.Escapable s →
      Negated ⟨e, alphabet⟩ (d.escape s) p (d.escape rest)
  | .tilde hon h, hs => by
    obtain ⟨hon, hoff⟩ := complement_inter_invert.1 hon
    rw [escape_cons hoff]
    exact .tilde hon (h.escaped hs.tail)
  | .bare hhead h, hs => by
    refine .bare (fun hon heq => ?_) (h.escaped hs)
    obtain ⟨htilde, hoff⟩ := (head?_escape_iff (by decide)).1 heq
    exact hhead (complement_inter_invert.2 ⟨hon, hoff⟩) htilde

theorem Simple.escaped {s rest : List Char} {p : Pattern} :
    Simple ⟨e.inter d.invert, alphabet⟩ s p rest → d.Escapable s →
      Simple ⟨e, alphabet⟩ (d.escape s) p (d.escape rest)
  | .bracket _ _, hs => absurd (List.mem_cons_self ..) hs.2.1
  | .negatedBracket _, hs => absurd (List.mem_cons_self ..) hs.2.1
  | .anyChar rest, _ => by
    rw [escape_plain (by decide)]
    exact .anyChar _
  | .empty rest hon, _ => by
    obtain ⟨hon, hoff⟩ := empty_inter_invert.1 hon
    rw [escape_cons hoff]
    exact .empty _ hon
  | .anyWord rest hon, _ => by
    obtain ⟨hon, hoff⟩ := anyWord_inter_invert.1 hon
    rw [escape_cons hoff]
    exact .anyWord _ hon
  | .quoted _ _, hs => absurd (List.mem_cons_self ..) hs.1
  | .emptyGroup h, hs => by
    have hstart := h.escaped (d := d)
    rw [escape_plain (by decide)] at hstart ⊢
    exact .emptyGroup hstart
  | .group h hhead h', hs => by
    have hbody := h'.escaped (hs.tail.suffix h.suffix)
    rw [escape_plain (by decide)] at hbody ⊢
    exact .group h.escaped (fun heq => hhead ((head?_escape_plain_iff (by decide)).1 heq)) hbody
  | .angle _ _ h, hs => by
    obtain ⟨hreference, hnumerals⟩ := hs.2.2.2 (List.mem_cons_self ..)
    cases h with
    | reference hon => simp [Extensions.inter, invert, zipWith, hreference] at hon
    | numerals hon => simp [Extensions.inter, invert, zipWith, hnumerals] at hon
  | .classEscape _ _, hs => absurd (List.mem_cons_self ..) hs.2.2.1
  | .escape _ _, hs => absurd (List.mem_cons_self ..) hs.2.2.1
  | .plain (c := c) rest hplain, hs => by
    cases hc : d.announces c with
    | false =>
        rw [escape_cons hc]
        exact .plain _ fun h => hplain ((special_inter_invert_iff hc hs).2 h)
    | true =>
        rw [escape_cons_of_announces hc]
        exact .escape _ (not_mem_classLetters c (mem_announcers hc))

end

mutual

theorem Alternatives.of_escape {u rest s : List Char} {p : Pattern} :
    Alternatives ⟨e, alphabet⟩ u p rest → d.Escapable s → u = d.escape s →
      ∃ t, rest = d.escape t ∧ Alternatives ⟨e.inter d.invert, alphabet⟩ s p t
  | .last h hbar, hs, hu => by
    obtain ⟨t, rfl, hfirst⟩ := h.of_escape hs hu
    exact ⟨t, rfl, .last hfirst fun heq => hbar ((head?_escape_plain_iff (by decide)).2 heq)⟩
  | .more h h', hs, hu => by
    obtain ⟨r, hr, hfirst⟩ := h.of_escape hs hu
    obtain ⟨r, rfl, hr, -⟩ := eq_cons_of_escape hr (by decide)
    obtain ⟨t, rfl, hsecond⟩ := h'.of_escape (hs.suffix hfirst.consumes.suffix).tail hr
    exact ⟨t, rfl, .more hfirst hsecond⟩

theorem Conjunction.of_escape {u rest s : List Char} {p : Pattern} :
    Conjunction ⟨e, alphabet⟩ u p rest → d.Escapable s → u = d.escape s →
      ∃ t, rest = d.escape t ∧ Conjunction ⟨e.inter d.invert, alphabet⟩ s p t
  | .last h hmark, hs, hu => by
    obtain ⟨t, rfl, hfirst⟩ := h.of_escape hs hu
    refine ⟨t, rfl, .last hfirst fun hon heq => ?_⟩
    obtain ⟨hon, hoff⟩ := intersection_inter_invert.1 hon
    exact hmark hon ((head?_escape_iff (by decide)).2 ⟨heq, hoff⟩)
  | .more hon h h', hs, hu => by
    obtain ⟨r, hr, hfirst⟩ := h.of_escape hs hu
    obtain ⟨r, rfl, hr, hoff⟩ := eq_cons_of_escape hr (by decide)
    obtain ⟨t, rfl, hsecond⟩ := h'.of_escape (hs.suffix hfirst.consumes.suffix).tail hr
    exact ⟨t, rfl, .more (intersection_inter_invert.2 ⟨hon, hoff⟩) hfirst hsecond⟩

theorem Sequence.of_escape {u rest s : List Char} {p : Pattern} :
    Sequence ⟨e, alphabet⟩ u p rest → d.Escapable s → u = d.escape s →
      ∃ t, rest = d.escape t ∧ Sequence ⟨e.inter d.invert, alphabet⟩ s p t
  | .last h hends, hs, hu => by
    obtain ⟨t, rfl, hfirst⟩ := h.of_escape hs hu
    exact ⟨t, rfl, .last hfirst (forall_ends_escape_iff.1 hends)⟩
  | .more h hends h', hs, hu => by
    obtain ⟨r, hr, hfirst⟩ := h.of_escape hs hu
    obtain ⟨t, rfl, hsecond⟩ := h'.of_escape (hs.suffix hfirst.consumes.suffix) hr
    refine ⟨t, rfl, ?_⟩
    cases r with
    | nil => cases hr
    | cons c r =>
        refine .more hfirst (fun hc => ?_) hsecond
        have hall := forall_ends_escape_iff (e := e) (d := d) (s := c :: r)
        rw [← hr] at hall
        exact hends (hall.2 (by simpa using hc) _ rfl)

theorem Quantified.of_escape {u rest s : List Char} {p : Pattern} :
    Quantified ⟨e, alphabet⟩ u p rest → d.Escapable s → u = d.escape s →
      ∃ t, rest = d.escape t ∧ Quantified ⟨e.inter d.invert, alphabet⟩ s p t
  | .intro h h', hs, hu => by
    obtain ⟨r, hr, hbody⟩ := h.of_escape hs hu
    obtain ⟨t, rfl, hquantifiers⟩ := h'.of_escape hr
    exact ⟨t, rfl, .intro hbody hquantifiers⟩

theorem Negated.of_escape {u rest s : List Char} {p : Pattern} :
    Negated ⟨e, alphabet⟩ u p rest → d.Escapable s → u = d.escape s →
      ∃ t, rest = d.escape t ∧ Negated ⟨e.inter d.invert, alphabet⟩ s p t
  | .tilde hon h, hs, hu => by
    obtain ⟨r, rfl, hr, hoff⟩ := eq_cons_of_escape hu (by decide)
    obtain ⟨t, rfl, hbody⟩ := h.of_escape hs.tail hr
    exact ⟨t, rfl, .tilde (complement_inter_invert.2 ⟨hon, hoff⟩) hbody⟩
  | .bare hhead h, hs, hu => by
    obtain ⟨t, rfl, hbody⟩ := h.of_escape hs hu
    refine ⟨t, rfl, .bare (fun hon heq => ?_) hbody⟩
    obtain ⟨hon, hoff⟩ := complement_inter_invert.1 hon
    rw [hu] at hhead
    exact hhead hon ((head?_escape_iff (by decide)).2 ⟨heq, hoff⟩)

theorem Simple.of_escape {u rest s : List Char} {p : Pattern} :
    Simple ⟨e, alphabet⟩ u p rest → d.Escapable s → u = d.escape s →
      ∃ t, rest = d.escape t ∧ Simple ⟨e.inter d.invert, alphabet⟩ s p t
  | .bracket _ _, hs, hu => by
    obtain ⟨r, rfl, -⟩ := eq_cons_of_escape hu (by decide)
    exact absurd (List.mem_cons_self ..) hs.2.1
  | .negatedBracket _, hs, hu => by
    obtain ⟨r, rfl, -⟩ := eq_cons_of_escape hu (by decide)
    exact absurd (List.mem_cons_self ..) hs.2.1
  | .anyChar rest, _, hu => by
    obtain ⟨t, rfl, ht, -⟩ := eq_cons_of_escape hu (by decide)
    exact ⟨t, ht, .anyChar t⟩
  | .empty rest hon, _, hu => by
    obtain ⟨t, rfl, ht, hoff⟩ := eq_cons_of_escape hu (by decide)
    exact ⟨t, ht, .empty t (empty_inter_invert.2 ⟨hon, hoff⟩)⟩
  | .anyWord rest hon, _, hu => by
    obtain ⟨t, rfl, ht, hoff⟩ := eq_cons_of_escape hu (by decide)
    exact ⟨t, ht, .anyWord t (anyWord_inter_invert.2 ⟨hon, hoff⟩)⟩
  | .quoted _ _, hs, hu => by
    obtain ⟨r, rfl, -⟩ := eq_cons_of_escape hu (by decide)
    exact absurd (List.mem_cons_self ..) hs.1
  | .emptyGroup h, hs, hu => by
    obtain ⟨r, rfl, hr, -⟩ := eq_cons_of_escape hu (by decide)
    obtain ⟨r, hr, hstart⟩ := h.of_escape hr
    obtain ⟨t, rfl, rfl, -⟩ := eq_cons_of_escape hr (by decide)
    exact ⟨t, rfl, .emptyGroup hstart⟩
  | .group h hhead h', hs, hu => by
    obtain ⟨r, rfl, hr, -⟩ := eq_cons_of_escape hu (by decide)
    obtain ⟨start, hstart, hflags⟩ := h.of_escape hr
    obtain ⟨r, hr, hbody⟩ := h'.of_escape (hs.tail.suffix hflags.suffix) hstart
    obtain ⟨t, rfl, rfl, -⟩ := eq_cons_of_escape hr (by decide)
    rw [hstart] at hhead
    refine ⟨t, rfl, .group hflags (fun heq => hhead ?_) hbody⟩
    exact (head?_escape_plain_iff (by decide)).2 heq
  | .angle _ _ h, hs, hu => by
    obtain ⟨r, rfl, -, hoff⟩ := eq_cons_of_escape hu (by decide)
    have hon := hs.2.2.2 (List.mem_cons_self ..)
    simp [announces, hon] at hoff
  | .classEscape _ hletter, hs, hu => by
    obtain ⟨c, r, rfl, hr, hc⟩ := eq_cons_of_escape_backslash hu hs
    rw [(List.cons.inj hr).1] at hletter
    exact absurd hletter (not_mem_classLetters c (mem_announcers hc))
  | .escape _ _, hs, hu => by
    obtain ⟨c, t, rfl, ht, hc⟩ := eq_cons_of_escape_backslash hu hs
    obtain ⟨rfl, rfl⟩ := List.cons.inj ht
    exact ⟨t, rfl, .plain t (not_special_of_announces hc)⟩
  | .plain (c := c) rest hplain, hs, hu => by
    have hbackslash : c ≠ '\\' := fun heq => hplain (Or.inl (by simp [heq]))
    obtain ⟨t, rfl, ht, hoff⟩ := eq_cons_of_escape hu hbackslash
    exact ⟨t, ht, .plain t fun h => hplain ((special_inter_invert_iff hoff hs).1 h)⟩

end

end Levels

end Grammar

namespace Pattern

open Grammar Extensions

/-- A text is read without some extensions as it is read with them once there is a backslash
before each character that announces one of their forms. -/
theorem parse_inter_invert_iff (e d : Extensions) (alphabet : Option Alphabet) (s : List Char)
    (hs : d.Escapable s) (p : Pattern) :
    parse ⟨e.inter d.invert, alphabet⟩ s = .ok p ↔ parse ⟨e, alphabet⟩ (d.escape s) = .ok p := by
  rw [parse_eq_ok_iff, parse_eq_ok_iff, reads_iff, reads_iff, escape_eq_nil_iff]
  refine or_congr_right ⟨fun h => h.escaped hs, fun h => ?_⟩
  obtain ⟨t, ht, h⟩ := h.of_escape hs rfl
  rwa [escape_eq_nil_iff.1 ht.symm] at h

/-- The extensions of the ampersand, the at sign and the angle brackets. -/
def markedExtensions : Extensions :=
  { intersection := true, complement := false, empty := false, anyWord := true,
    reference := true, numerals := true }

/-- A text in which the tilde and the hash keep their meaning when these extensions are off,
while the other marks stand for themselves, first and last in a sequence and in a group. -/
def markedText : List Char := "~&<#(?i:@|&)*".toList

theorem parse_markedText :
    markedExtensions.Escapable markedText ∧
    parse ⟨Extensions.all.inter markedExtensions.invert, none⟩ markedText =
      .ok (.concat (.complement (.char '&')) (.concat (.char '<') (.concat .empty
        (.star (.union (.char '@') (.char '&')))))) ∧
    parse ⟨.all, none⟩ (markedExtensions.escape markedText) =
      .ok (.concat (.complement (.char '&')) (.concat (.char '<') (.concat .empty
        (.star (.union (.char '@') (.char '&')))))) ∧
    markedExtensions.escape markedText = "~\\&\\<#(?i:\\@|\\&)*".toList := by
  have hs : markedExtensions.Escapable markedText := by
    unfold Extensions.Escapable markedText markedExtensions
    decide
  have hread : parse ⟨Extensions.all.inter markedExtensions.invert, none⟩ markedText =
      .ok (.concat (.complement (.char '&')) (.concat (.char '<') (.concat .empty
        (.star (.union (.char '@') (.char '&')))))) := by
    decide +kernel
  refine ⟨hs, hread, ?_, by decide +kernel⟩
  exact (parse_inter_invert_iff .all markedExtensions none markedText hs _).1 hread

end Pattern

end PatternAutomata
