import PatternAutomata.Proofs.Progress

/-!
# The descent comes to an end

Nine productions call one another before anything is read, and a group leads back to the
loosest one. The measure of a call is eight times the number of characters left and the level
of the production: a call at the same place is of a lower level, and after a character has
been read any level is lower than before. So calls that go as deep as the measure are enough.

The parser itself takes along, with each place, that the place is later, and needs no depth.
The descent reads the same without this: if the calls of smaller measures answer what the
parser reads, so does the production that makes them.

## Main results

* `Descent.step_eq`: one step of a production.
* `Descent.descend_eq`, `parseWithin_eq`: a depth that is enough.
* `descent_progresses`: ends and progress of all productions.
-/

namespace PatternAutomata

/-- The outcome of a step of the parser, as an answer of the descent. -/
def Result.answer {α : Type} {c : Cursor} (r : Result α c) : Pattern.Descent (α × Cursor) :=
  ExceptT.mk (some r.erase)

namespace Cursor

variable {c : Cursor} {x : Char}

theorem step?_eq (c : Cursor) : c.step? = c.next?.map fun p => (p.value, p.rest) := by
  obtain ⟨chars, position⟩ := c
  cases chars with
  | nil => rfl
  | cons x chars => rfl

theorem pass?_eq (c : Cursor) (x : Char) : c.pass? x = (c.skip? x).map (·.rest) := by
  rw [pass?, skip?, step?_eq]
  cases c.next? with
  | none => rfl
  | some step =>
      obtain ⟨y, rest, h⟩ := step
      by_cases hy : y = x
      · simp [hy]
      · simp [hy]

theorem next?_of_pass? {d : Cursor} (h : c.pass? x = some d) :
    ∃ hlt, c.next? = some ⟨x, d, hlt⟩ := by
  rw [pass?_eq, skip?] at h
  cases hnext : c.next? with
  | none =>
      rw [hnext] at h
      cases h
  | some step =>
      obtain ⟨y, rest, hrest⟩ := step
      simp only [hnext] at h
      split at h
      · next hy =>
        cases h
        exact ⟨hrest, hy ▸ rfl⟩
      · cases h

theorem skipAny_eq (c : Cursor) (x : Char) : (c.skipAny x).val = (c.pass? x).getD c := by
  rw [pass?_eq, skipAny]
  cases c.skip? x with
  | none => rfl
  | some step => rfl

/-- A place right before another. -/
def before (c : Cursor) : Cursor := ⟨' ' :: c.chars, c.position - 1⟩

theorem length_lt_before (c : Cursor) : c.chars.length < c.before.chars.length :=
  Nat.lt_succ_self _

end Cursor

namespace Pattern

open Cursor

namespace Descent

variable {α β : Type} {c d : Cursor}

/-- After the answer of a step, the descent and the parser go on alike. -/
theorem answer_bind_except {r : Result α d} {f : Parsed α d → Except SyntaxError β}
    {g : α × Cursor → Descent β}
    (h : ∀ a rest hrest, r = .ok ⟨a, rest, hrest⟩ →
      g (a, rest) = ExceptT.mk (some (f ⟨a, rest, hrest⟩))) :
    r.answer >>= g = ExceptT.mk (some (r >>= f)) := by
  cases r with
  | error e => rfl
  | ok p => exact h p.value p.rest p.progress rfl

theorem answer_bind {r : Result α d} {f : Parsed α d → Result β c}
    {g : α × Cursor → Descent (β × Cursor)}
    (h : ∀ a rest hrest, r = .ok ⟨a, rest, hrest⟩ →
      g (a, rest) = (f ⟨a, rest, hrest⟩).answer) :
    r.answer >>= g = Result.answer (r >>= f) := by
  cases r with
  | error e => rfl
  | ok p => exact h p.value p.rest p.progress rfl

theorem answer_within {r : Result α d} (h : d.chars.length < c.chars.length) :
    Result.answer (c := c) (r.map (·.within h id)) = r.answer := by
  cases r with
  | error e => rfl
  | ok p => rfl

/-! ## Characters and numbers -/

theorem expect_eq (c : Cursor) (x : Char) : expect c x = (c.expect x).answer := by
  rw [expect, Cursor.expect, pass?_eq]
  cases c.skip? x with
  | none => rfl
  | some step => rfl

theorem integer_eq (c : Cursor) : integer c = c.integer.answer := by
  have hlength := congrArg List.length (c.run_spec CharClass.isDigit).1
  rw [List.length_append] at hlength
  rw [integer, Cursor.integer]
  by_cases hnone : c.taken CharClass.isDigit = []
  · rw [hnone] at hlength
    rw [dif_neg (by simp at hlength; omega), if_pos (by simp [hnone])]
    rfl
  · have hpos := List.length_pos_iff.2 hnone
    rw [dif_pos (by omega), if_neg (by simp [hnone])]
    split_ifs
    · rfl
    · rfl

theorem classMember_eq (c : Cursor) : classMember c = (Parser.classMember c).answer := by
  rw [classMember, Parser.classMember, ← skipAny_eq, step?_eq]
  rcases c.skipAny '\\' with ⟨start, hstart⟩
  cases hnext : start.next? with
  | none => simp only [hnext, Option.map_none]; rfl
  | some member => simp only [hnext, Option.map_some]; rfl

theorem repetition_eq (c : Cursor) : repetition c = (Parser.repetition c).answer := by
  rw [repetition, Parser.repetition, integer_eq]
  refine answer_bind fun min rest hrest _ => ?_
  simp only [pass?_eq]
  cases rest.skip? ',' with
  | none =>
      simp only [Option.map_none, expect_eq]
      exact answer_bind fun _ _ _ _ => rfl
  | some step =>
      obtain ⟨⟨⟩, comma, hcomma⟩ := step
      simp only [Option.map_some]
      by_cases hdigit : comma.peek?.any CharClass.isDigit = true
      · simp only [if_pos hdigit, integer_eq]
        refine answer_bind fun max rest hrest _ => ?_
        simp only [expect_eq]
        exact answer_bind fun _ _ _ _ => rfl
      · simp only [if_neg hdigit, expect_eq]
        exact answer_bind fun _ _ _ _ => rfl

/-! ## Productions that call no other -/

theorem classItem_eq (c : Cursor) : classItem c = (Parser.classItem c).answer := by
  rw [classItem, Parser.classItem, classMember_eq]
  refine answer_bind fun lo rest hrest _ => ?_
  simp only [pass?_eq]
  cases rest.skip? '-' with
  | none => rfl
  | some step =>
      obtain ⟨⟨⟩, dash, hdash⟩ := step
      simp only [Option.map_some]
      by_cases hclose : dash.peek? = some ']'
      · simp only [if_pos hclose]
        rfl
      · simp only [if_neg hclose, classMember_eq]
        exact answer_bind fun _ _ _ _ => rfl

theorem angled_eq (e : Extensions) (c : Cursor) : angled e c = (Parser.angled e c).answer := by
  rw [angled, Parser.angled]
  simp only [expect_eq]
  refine answer_bind fun _ rest hrest _ => ?_
  cases Parser.angleContent e (c.taken (· ≠ '>')) with
  | ok pattern => rfl
  | error fault => rfl

theorem escaped_eq (alphabet : Option Alphabet) (c : Cursor) :
    escaped alphabet c = (Parser.escaped alphabet c).answer := by
  rw [escaped, Parser.escaped, step?_eq]
  cases c.next? with
  | none => rfl
  | some step => rfl

theorem quoted_eq (c : Cursor) : quoted c = (Parser.quoted c).answer := by
  rw [quoted, Parser.quoted, expect_eq]
  exact answer_bind fun _ _ _ _ => rfl

theorem skipFlags_eq (c : Cursor) : skipFlags c = (Parser.skipFlags c).val := by
  rw [skipFlags, Parser.skipFlags, pass?_eq]
  cases c.skip? '?' with
  | none => rfl
  | some step =>
      obtain ⟨⟨⟩, rest, hrest⟩ := step
      exact (skipAny_eq _ ':').symm

/-! ## Loops -/

/-- What the parser makes of the quantifiers does not depend on where the pattern began. -/
theorem quantifiers_answer {o o' : Cursor} (body : Pattern) (c : Cursor)
    (h : c.chars.length < o.chars.length) (h' : c.chars.length < o'.chars.length) :
    (Parser.quantifiers body c h).answer = (Parser.quantifiers body c h').answer := by
  rw [Parser.quantifiers, Parser.quantifiers]
  split
  · exact quantifiers_answer _ _ _ _
  · exact quantifiers_answer _ _ _ _
  · exact quantifiers_answer _ _ _ _
  · next rest hrest hnext =>
    cases hbounds : Parser.repetition rest with
    | error e => rfl
    | ok bounds =>
        obtain ⟨⟨min, max?⟩, after, hafter⟩ := bounds
        cases max? with
        | none => exact quantifiers_answer (.atLeast min body) after _ _
        | some max =>
            by_cases horder : max < min
            · simp only [bind, Except.bind, if_pos horder]
              rfl
            · simp only [bind, Except.bind, if_neg horder]
              exact quantifiers_answer (.between min max body) after _ _
  · rfl
termination_by c.chars.length
decreasing_by all_goals omega

theorem moreItems_answer {o o' : Cursor} (items : Pattern) (c : Cursor)
    (h : c.chars.length < o.chars.length) (h' : c.chars.length < o'.chars.length) :
    (Parser.moreItems items c h).answer = (Parser.moreItems items c h').answer := by
  rw [Parser.moreItems, Parser.moreItems]
  split_ifs
  · rfl
  · cases hitem : Parser.classItem c with
    | error e => rfl
    | ok step =>
        obtain ⟨item, rest, hrest⟩ := step
        exact moreItems_answer (.union items item) rest _ _
termination_by c.chars.length

end Descent

/-! ## Calls -/

namespace Production

/-- The productions that are called at the same place are of lower levels. -/
def level : Production → Nat
  | .group => 7
  | .alternatives => 6
  | .conjunction => 5
  | .sequence => 4
  | .quantified => 3
  | .negated => 2
  | .charClass | .classItems | .moreItems _ => 1
  | .quantifiers _ | .simple | .classItem | .angled | .escaped | .quoted => 0

/-- How deep the calls of a production can go. -/
def measure (p : Production) (c : Cursor) : Nat := 8 * c.chars.length + p.level

/-- What the parser reads for a production. It has one step for classes and simple forms, and
a bracket is not left to the latter. A loop is entered at some place after the one where the
pattern began. -/
def outcome (n : Notation) : Production → Cursor → Except SyntaxError (Pattern × Cursor)
  | .alternatives, c => (Parser.alternatives n c).erase
  | .conjunction, c => (Parser.conjunction n c).erase
  | .sequence, c => (Parser.sequence n c).erase
  | .quantified, c => (Parser.quantified n c).erase
  | .quantifiers body, c => (Parser.quantifiers body c c.length_lt_before).erase
  | .negated, c => (Parser.negated n c).erase
  | .charClass, c => (Parser.simple n c).erase
  | .simple, c =>
    match c.pass? '[' with
    | some rest => .ok (.char '[', rest)
    | none => (Parser.simple n c).erase
  | .classItems, c => (Parser.classItems c).erase
  | .moreItems items, c => (Parser.moreItems items c c.length_lt_before).erase
  | .classItem, c => (Parser.classItem c).erase
  | .group, c => (Parser.group n c).erase
  | .angled, c => (Parser.angled n.extensions c).erase
  | .escaped, c => (Parser.escaped n.alphabet c).erase
  | .quoted, c => (Parser.quoted c).erase

variable {p q : Production} {c d : Cursor}

theorem measure_lt_of_le (h : d.chars.length ≤ c.chars.length) (hlevel : q.level < p.level) :
    q.measure d < p.measure c := by
  rw [measure, measure]
  omega

theorem measure_lt_of_lt (h : d.chars.length < c.chars.length) : q.measure d < p.measure c := by
  have hlevel : q.level < 8 := by cases q <;> simp [level]
  rw [measure, measure]
  omega

end Production

/-- Calls of a smaller measure answer what the parser reads. -/
def Answering (n : Notation) (call : Production → Cursor → Reading) (bound : Nat) : Prop :=
  ∀ (q : Production) (d : Cursor), q.measure d < bound →
    call q d = ExceptT.mk (some (q.outcome n d))

namespace Descent

section Calls

open Production

variable {n : Notation} {call : Production → Cursor → Reading} {c : Cursor}

theorem alternatives_eq (h : Answering n call (Production.alternatives.measure c)) :
    alternatives call c = (Parser.alternatives n c).answer := by
  have hfirst : call .conjunction c = (Parser.conjunction n c).answer :=
    h _ _ (measure_lt_of_le (Nat.le_refl _) (by decide))
  rw [alternatives, hfirst, Parser.alternatives]
  refine answer_bind fun first rest hrest _ => ?_
  simp only [pass?_eq]
  cases rest.skip? '|' with
  | none => rfl
  | some step =>
      obtain ⟨⟨⟩, bar, hbar⟩ := step
      have hsecond : call .alternatives bar = (Parser.alternatives n bar).answer :=
        h _ _ (measure_lt_of_lt (Nat.lt_trans hbar hrest))
      simp only [Option.map_some, hsecond]
      exact answer_bind fun _ _ _ _ => rfl

theorem conjunction_eq (h : Answering n call (Production.conjunction.measure c)) :
    conjunction n call c = (Parser.conjunction n c).answer := by
  have hfirst : call .sequence c = (Parser.sequence n c).answer :=
    h _ _ (measure_lt_of_le (Nat.le_refl _) (by decide))
  rw [conjunction, hfirst, Parser.conjunction]
  refine answer_bind fun first rest hrest _ => ?_
  by_cases hon : n.extensions.intersection = true
  · simp only [if_pos hon, pass?_eq]
    cases rest.skip? '&' with
    | none => rfl
    | some step =>
        obtain ⟨⟨⟩, mark, hmark⟩ := step
        have hsecond : call .conjunction mark = (Parser.conjunction n mark).answer :=
          h _ _ (measure_lt_of_lt (Nat.lt_trans hmark hrest))
        simp only [Option.map_some, hsecond]
        exact answer_bind fun _ _ _ _ => rfl
  · simp only [if_neg hon]
    rfl

theorem sequence_eq (h : Answering n call (Production.sequence.measure c)) :
    sequence n call c = (Parser.sequence n c).answer := by
  have hfirst : call .quantified c = (Parser.quantified n c).answer :=
    h _ _ (measure_lt_of_le (Nat.le_refl _) (by decide))
  rw [sequence, hfirst, Parser.sequence]
  refine answer_bind fun first rest hrest _ => ?_
  by_cases hstop : rest.peek?.all (Parser.endsSequence n.extensions) = true
  · simp only [if_pos hstop]
    rfl
  · have hsecond : call .sequence rest = (Parser.sequence n rest).answer :=
      h _ _ (measure_lt_of_lt hrest)
    simp only [if_neg hstop, hsecond]
    exact answer_bind fun _ _ _ _ => rfl

theorem quantified_eq (h : Answering n call (Production.quantified.measure c)) :
    quantified call c = (Parser.quantified n c).answer := by
  have hbody : call .negated c = (Parser.negated n c).answer :=
    h _ _ (measure_lt_of_le (Nat.le_refl _) (by decide))
  rw [quantified, hbody, Parser.quantified]
  refine answer_bind fun body rest hrest _ => ?_
  exact (h (.quantifiers body) rest (measure_lt_of_lt hrest)).trans
    (quantifiers_answer body rest _ hrest)

theorem quantifiers_eq {body : Pattern}
    (h : Answering n call ((Production.quantifiers body).measure c)) :
    quantifiers call body c = (Parser.quantifiers body c c.length_lt_before).answer := by
  have hmore : ∀ (body : Pattern) {rest : Cursor} (hrest : rest.chars.length < c.chars.length),
      call (.quantifiers body) rest =
        (Parser.quantifiers body rest (Nat.lt_trans hrest c.length_lt_before)).answer :=
    fun body rest hrest => (h _ rest (measure_lt_of_lt hrest)).trans
      (quantifiers_answer body rest _ _)
  rw [quantifiers, Parser.quantifiers, step?_eq]
  cases c.next? with
  | none => rfl
  | some step =>
      obtain ⟨x, rest, hrest⟩ := step
      rw [Option.map_some]
      split
      · next heq =>
        cases heq
        exact hmore _ hrest
      · next heq =>
        cases heq
        exact hmore _ hrest
      · next heq =>
        cases heq
        exact hmore _ hrest
      · next heq =>
        cases heq
        rw [repetition_eq]
        refine answer_bind fun bounds after hafter _ => ?_
        obtain ⟨min, max?⟩ := bounds
        cases max? with
        | none => exact hmore _ (Nat.lt_trans hafter hrest)
        | some max =>
            by_cases horder : max < min
            · simp only [if_pos horder]
              rfl
            · simp only [if_neg horder]
              exact hmore _ (Nat.lt_trans hafter hrest)
      · next hopt hstar hplus hbrace =>
        split
        · next heq => cases heq; exact absurd rfl (hopt _)
        · next heq => cases heq; exact absurd rfl (hstar _)
        · next heq => cases heq; exact absurd rfl (hplus _)
        · next heq => cases heq; exact absurd rfl (hbrace _)
        · rfl

theorem negated_eq (h : Answering n call (Production.negated.measure c)) :
    negated n call c = (Parser.negated n c).answer := by
  have hbare : call .charClass c = (Parser.simple n c).answer :=
    h _ _ (measure_lt_of_le (Nat.le_refl _) (by decide))
  rw [negated, Parser.negated]
  by_cases hon : n.extensions.complement = true
  · simp only [if_pos hon, pass?_eq]
    cases c.skip? '~' with
    | none => exact hbare
    | some step =>
        obtain ⟨⟨⟩, rest, hrest⟩ := step
        have hbody : call .negated rest = (Parser.negated n rest).answer :=
          h _ _ (measure_lt_of_lt hrest)
        simp only [Option.map_some, hbody]
        exact answer_bind fun _ _ _ _ => rfl
  · simp only [if_neg hon]
    exact hbare

theorem classItems_eq (h : Answering n call (Production.classItems.measure c)) :
    classItems call c = (Parser.classItems c).answer := by
  have hitem : call .classItem c = (Parser.classItem c).answer :=
    h _ _ (measure_lt_of_le (Nat.le_refl _) (by decide))
  rw [classItems, hitem, Parser.classItems]
  refine answer_bind fun item rest hrest _ => ?_
  exact (h (.moreItems item) rest (measure_lt_of_lt hrest)).trans
    (moreItems_answer item rest _ hrest)

theorem moreItems_eq {items : Pattern}
    (h : Answering n call ((Production.moreItems items).measure c)) :
    moreItems call items c = (Parser.moreItems items c c.length_lt_before).answer := by
  have hitem : call .classItem c = (Parser.classItem c).answer :=
    h _ _ (measure_lt_of_le (Nat.le_refl _) (by simp [level]))
  rw [moreItems, Parser.moreItems]
  by_cases hstop : c.peek? = none ∨ c.peek? = some ']'
  · rw [if_pos hstop, if_pos hstop]
    rfl
  · rw [if_neg hstop, if_neg hstop, hitem]
    refine answer_bind fun item rest hrest _ => ?_
    exact (h (.moreItems _) rest (measure_lt_of_lt hrest)).trans (moreItems_answer _ rest _ _)

theorem group_eq (h : Answering n call (Production.group.measure c)) :
    group call c = (Parser.group n c).answer := by
  rw [group, Parser.group, skipFlags_eq]
  rcases Parser.skipFlags c with ⟨start, hstart⟩
  simp only [pass?_eq]
  cases start.skip? ')' with
  | some step => rfl
  | none =>
      have hbody : call .alternatives start = (Parser.alternatives n start).answer :=
        h _ _ (measure_lt_of_le hstart (by decide))
      simp only [Option.map_none, hbody]
      refine answer_bind fun body rest hrest _ => ?_
      simp only [expect_eq]
      exact answer_bind fun _ _ _ _ => rfl

theorem charClass_eq (h : Answering n call (Production.charClass.measure c)) :
    charClass call c = (Parser.simple n c).answer := by
  rw [charClass]
  cases hpass : c.pass? '[' with
  | none =>
      have hsimple := h .simple c (measure_lt_of_le (Nat.le_refl _) (by decide))
      simp only [outcome, hpass] at hsimple
      exact hsimple
  | some rest =>
      obtain ⟨hrest, hnext⟩ := next?_of_pass? hpass
      have hbracketed : Parser.simple n c = (Parser.bracketed rest).map (·.within hrest id) := by
        rw [Parser.simple, hnext]
        rfl
      rw [hbracketed, answer_within, Parser.bracketed]
      simp only [← skipAny_eq]
      rcases rest.skipAny '^' with ⟨start, hstart⟩
      have hitems : call .classItems start = (Parser.classItems start).answer :=
        h _ _ (measure_lt_of_lt (Nat.lt_of_le_of_lt hstart hrest))
      simp only [hitems]
      refine answer_bind fun items close hclose _ => ?_
      simp only [expect_eq]
      exact answer_bind fun _ _ _ _ => rfl

/-- A bracket is read like any other character. -/
theorem simple_eq_of_bracket {rest : Cursor} (h : c.pass? '[' = some rest) :
    simple n call c = pure (.char '[', rest) := by
  obtain ⟨hrest, hnext⟩ := next?_of_pass? h
  rw [simple, step?_eq, hnext]
  simp

theorem simple_eq (h : Answering n call (Production.simple.measure c)) :
    simple n call c = ExceptT.mk (some (Production.simple.outcome n c)) := by
  rw [outcome]
  cases hpass : c.pass? '[' with
  | some rest => exact simple_eq_of_bracket hpass
  | none =>
      show _ = (Parser.simple n c).answer
      rw [simple, step?_eq, Parser.simple]
      cases hnext : c.next? with
      | none => rfl
      | some step =>
          obtain ⟨x, rest, hrest⟩ := step
          have hx : x ≠ '[' := by
            rintro rfl
            rw [pass?_eq, skip?, hnext] at hpass
            cases hpass
          have hcall : ∀ q : Production, call q rest = ExceptT.mk (some (q.outcome n rest)) :=
            fun q => h q rest (measure_lt_of_lt hrest)
          simp only [Option.map_some, if_neg hx, hcall]
          split_ifs
          · rfl
          · rfl
          · rfl
          · exact (answer_within hrest).symm
          · exact (answer_within hrest).symm
          · exact (answer_within hrest).symm
          · exact (answer_within hrest).symm
          · rfl

/-- A production answers what the parser reads if the productions that it calls do. -/
theorem step_eq (p : Production) (h : Answering n call (p.measure c)) :
    p.step n call c = ExceptT.mk (some (p.outcome n c)) := by
  cases p with
  | alternatives => exact alternatives_eq h
  | conjunction => exact conjunction_eq h
  | sequence => exact sequence_eq h
  | quantified => exact quantified_eq h
  | quantifiers body => exact quantifiers_eq h
  | negated => exact negated_eq h
  | charClass => exact charClass_eq h
  | simple => exact simple_eq h
  | classItems => exact classItems_eq h
  | moreItems items => exact moreItems_eq h
  | classItem => exact classItem_eq c
  | group => exact group_eq h
  | angled => exact angled_eq _ c
  | escaped => exact escaped_eq _ c
  | quoted => exact quoted_eq c

end Calls

/-- A depth beyond the measure is enough. -/
theorem descend_eq (n : Notation) {depth : Nat} {p : Production} {c : Cursor}
    (h : p.measure c < depth) : descend n depth p c = ExceptT.mk (some (p.outcome n c)) := by
  induction depth generalizing p c with
  | zero => exact absurd h (Nat.not_lt_zero _)
  | succ depth ih => exact step_eq p fun q d hlt => ih (by omega)

end Descent

theorem parseWithin_eq (n : Notation) {depth : Nat} {text : List Char}
    (h : Production.alternatives.measure (ofText text) < depth) :
    parseWithin n depth text = ExceptT.mk (some (parse n text)) := by
  rw [parseWithin, parse, Descent.descend_eq n h]
  split
  · rfl
  · refine Descent.answer_bind_except fun pattern rest _ _ => ?_
    dsimp only
    split
    · rfl
    · rfl

/-- Whatever the notation is, every production comes to an end at every place of every text:
calls that go deeper than its measure are never made, and then it answers what the parser
reads. If it succeeds, it stops at a later place, as many characters after the first as its
position says, and only a loop can stop at once. So every text is read, or refused, with
calls of a depth that is linear in its length. -/
theorem descent_progresses (n : Notation) :
    (∀ (p : Production) (c : Cursor),
      (∀ depth > p.measure c, descend n depth p c = ExceptT.mk (some (p.outcome n c))) ∧
      ∀ value rest, p.outcome n c = .ok (value, rest) → p.Stops c rest) ∧
    ∀ (text : List Char) (depth : Nat), 8 * text.length + 6 < depth →
      parseWithin n depth text = ExceptT.mk (some (parse n text)) := by
  refine ⟨fun p c => ⟨fun depth h => Descent.descend_eq n h, fun value rest h => ?_⟩,
    fun text depth h => parseWithin_eq n h⟩
  refine Descent.stops_descend n (p.measure c + 1) p c value rest ?_
  rw [Descent.descend_eq n (Nat.lt_succ_self _), h]
  rfl

/-- The depth counts: no answer yet, and an error at the end of an open group. -/
example : (parseWithin ⟨.all, none⟩ 7 "(a".toList).run = none ∧
    (parseWithin ⟨.all, none⟩ 23 "(a".toList).run = some (.error ⟨2, .expected ')'⟩) := by
  decide +kernel

end Pattern

end PatternAutomata
