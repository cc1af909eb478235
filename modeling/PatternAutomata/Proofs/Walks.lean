import PatternAutomata.Generator.Basic
import PatternAutomata.Proofs.Minimization
import PatternAutomata.Proofs.Weights

/-!
# Random walks and the words of an automaton

In an automaton without useless states a walk never fails: a state that nothing leads on
from accepts, and all numbers below the total of a state are those of steps. One step of
a walk (`walkOn_step`) either ends it in an accepting state or takes a step of the
automaton, so the word of a walk is accepted.

The draws of a walk can be read off its word. In each state the next character has one
number, and stopping has a number of its own that only accepting states have. So the
lists of draws correspond to the accepted words.

## Main results

* `Trim.walkOn_spec`: no walk fails, and all lead to accepted words.
* `Trim.exists_choices`: the numbers for an accepted word, from any source.
* `Trim.exists_draws`, `Trim.draws_unique`: the draws for an accepted word.
* `ofDfa_walks`: walks of a generator and the words of its automaton.
-/

namespace PatternAutomata

namespace Dfa

variable {d : Dfa} {s : Nat} {w v : List Char}

/-! ## Sources of draws -/

/-- The numbers that are drawn are below the bound, if that is not zero. -/
def InRange {σ : Type u} (draw? : Nat → σ → Option (Nat × σ)) : Prop :=
  ∀ bound source n source', 0 < bound → draw? bound source = some (n, source') → n < bound

/-- The next of some numbers that have been drawn in advance, if it is below the
bound. -/
def listDraw? (bound : Nat) : List Nat → Option (Nat × List Nat)
  | [] => none
  | n :: draws => if n < bound then some (n, draws) else none

@[simp] theorem listDraw?_eq_some_iff {bound n : Nat} {draws rest : List Nat} :
    listDraw? bound draws = some (n, rest) ↔ draws = n :: rest ∧ n < bound := by
  cases draws with
  | nil => simp [listDraw?]
  | cons m draws =>
      rw [listDraw?]
      by_cases hm : m < bound
      · rw [if_pos hm, Option.some_inj, Prod.mk.injEq, List.cons_eq_cons]
        constructor
        · intro h
          exact ⟨h, h.1 ▸ hm⟩
        · intro h
          exact h.1
      · rw [if_neg hm]
        refine iff_of_false (fun h => by cases h) ?_
        intro h
        rw [List.cons_eq_cons] at h
        exact hm (h.1.1 ▸ h.2)

theorem inRange_listDraw? : InRange listDraw? := by
  intro bound draws n rest _ h
  exact (listDraw?_eq_some_iff.1 h).2

theorem inRange_drawAmong? (tries : Nat) :
    InRange fun bound => Random.Source.drawAmong? bound tries := by
  induction tries with
  | zero =>
      intro bound source n source' _ h
      cases h
  | succ tries ih =>
      intro bound source n source' hbound h
      simp only [Random.Source.drawAmong?] at h
      cases hnext : source.next? with
      | none =>
          rw [hnext] at h
          cases h
      | some next =>
          obtain ⟨word, later⟩ := next
          simp only [hnext] at h
          split at h
          · obtain ⟨rfl, rfl⟩ := Prod.mk.inj (Option.some.inj h)
            have hword : word.toNat < Random.wordCount := word.isLt
            rw [Nat.div_lt_iff_lt_mul (by decide), Nat.mul_comm bound]
            exact Nat.mul_lt_mul_of_pos_right hword hbound
          · exact ih bound later n source' hbound h

theorem inRange_draw? : InRange Random.Source.draw? := by
  intro bound source n source' hbound h
  exact inRange_drawAmong? source.horizon bound source n source' hbound h

/-! ## Walks do not fail -/

/-- The weights of a state. -/
def weights (d : Dfa) (s : Nat) : Weights := Weights.ofRow (d.row s)

/-- The number of choices in a state. -/
def choices (d : Dfa) (s : Nat) : Nat :=
  if d.isAccepting s then (d.weights s).total + 1 else (d.weights s).total

theorem walkOn_succ {σ : Type u} (d : Dfa) (draw? : Nat → σ → Option (Nat × σ))
    (steps : Nat) (word : List Char) (s : Nat) (source : σ) :
    d.walkOn draw? (steps + 1) word s source =
      if (d.weights s).total = 0 then
        if d.isAccepting s then .ok (word.reverse, source) else .error (.deadEnd s)
      else
        match draw? (d.choices s) source with
        | none => .error .sourceExhausted
        | some (n, source) =>
          if n = (d.weights s).total then .ok (word.reverse, source)
          else
            match (d.weights s).pick? n with
            | some (c, t) => d.walkOn draw? steps (c :: word) t source
            | none => .error (.noSuchCharacter n) := rfl

/-- A state that nothing leads on from accepts. -/
theorem Trim.isAccepting_of_total_eq_zero (h : d.Trim) (hs : s < d.size)
    (htotal : (d.weights s).total = 0) : d.isAccepting s = true := by
  obtain ⟨v, hv⟩ := h.productive s hs
  cases v with
  | nil => exact hv
  | cons c v =>
      obtain ⟨t, hstep, -⟩ := acceptsFrom_cons_iff.1 hv
      exact absurd htotal (Weights.total_ne_zero_of_step? hstep)

/-- A number in range is that of a step or, in an accepting state, of stopping. -/
theorem WellFormed.draw_cases (h : d.WellFormed) {n : Nat} (hn : n < d.choices s) :
    (n = (d.weights s).total ∧ d.isAccepting s = true) ∨
    (n ≠ (d.weights s).total ∧
      ∃ c t, (d.weights s).pick? n = some (c, t) ∧ d.step? s c = some t) := by
  rw [choices] at hn
  by_cases hstop : n = (d.weights s).total
  · left
    refine ⟨hstop, ?_⟩
    by_contra haccept
    rw [if_neg haccept] at hn
    omega
  · right
    have hlt : n < (d.weights s).total := by
      by_cases haccept : d.isAccepting s = true
      · rw [if_pos haccept] at hn
        omega
      · rw [if_neg haccept] at hn
        exact hn
    exact ⟨hstop, Weights.exists_step_of_lt_total (h.ordered_row s) hlt⟩

theorem choices_pos (htotal : (d.weights s).total ≠ 0) : 0 < d.choices s := by
  rw [choices]
  split <;> omega

section Sources

variable {σ : Type u} {draw? : Nat → σ → Option (Nat × σ)}

/-- One step of a walk: the source is exhausted, or the walk stops in an accepting
state, or it takes a step of the automaton. -/
theorem Trim.walkOn_step (h : d.Trim) (hdraw : InRange draw?) (hs : s < d.size)
    (steps : Nat) (word : List Char) (source : σ) :
    d.walkOn draw? (steps + 1) word s source = .error .sourceExhausted ∨
    (d.isAccepting s = true ∧
      ∃ rest, d.walkOn draw? (steps + 1) word s source = .ok (word.reverse, rest)) ∨
    ∃ c t rest, d.step? s c = some t ∧
      d.walkOn draw? (steps + 1) word s source = d.walkOn draw? steps (c :: word) t rest := by
  rw [walkOn_succ]
  by_cases htotal : (d.weights s).total = 0
  · have haccept := h.isAccepting_of_total_eq_zero hs htotal
    rw [if_pos htotal, if_pos haccept]
    exact Or.inr (Or.inl ⟨haccept, source, rfl⟩)
  · rw [if_neg htotal]
    cases hnext : draw? (d.choices s) source with
    | none => exact Or.inl rfl
    | some next =>
        obtain ⟨n, rest⟩ := next
        have hn := hdraw _ _ _ _ (choices_pos htotal) hnext
        rcases h.draw_cases hn with ⟨hstop, haccept⟩ | ⟨hgo, c, t, hpick, hstep⟩
        · exact Or.inr (Or.inl ⟨haccept, rest, if_pos hstop⟩)
        · refine Or.inr (Or.inr ⟨c, t, rest, hstep, ?_⟩)
          simp only [if_neg hgo, hpick]

/-- A walk fails only if the source is exhausted, and goes on with a word that is
accepted. -/
theorem Trim.walkOn_spec (h : d.Trim) (hdraw : InRange draw?) (hs : s < d.size)
    (steps : Nat) (word : List Char) (source : σ) :
    (∀ fault, d.walkOn draw? steps word s source = .error fault →
      fault = .sourceExhausted) ∧
    ∀ v rest, d.walkOn draw? steps word s source = .ok (v, rest) →
      ∃ w, v = word.reverse ++ w ∧ d.acceptsFrom s w = true := by
  induction steps generalizing word s source with
  | zero =>
      constructor
      · intro fault hfault
        cases hfault
        rfl
      · intro v rest hok
        cases hok
  | succ steps ih =>
      rcases h.walkOn_step hdraw hs steps word source with
        hnone | ⟨haccept, rest, hstop⟩ | ⟨c, t, rest, hstep, hgo⟩
      · rw [hnone]
        constructor
        · intro fault hfault
          cases hfault
          rfl
        · intro v rest hok
          cases hok
      · rw [hstop]
        constructor
        · intro fault hfault
          cases hfault
        · intro v rest' hok
          cases hok
          exact ⟨[], (List.append_nil _).symm, haccept⟩
      · rw [hgo]
        obtain ⟨hfault, hok⟩ := ih (h.step?_lt hstep) (c :: word) rest
        refine ⟨hfault, fun v rest' hv => ?_⟩
        obtain ⟨w, rfl, hw⟩ := hok v rest' hv
        refine ⟨c :: w, ?_, acceptsFrom_cons_iff.2 ⟨t, hstep, hw⟩⟩
        rw [List.reverse_cons, List.append_assoc]
        rfl

end Sources

/-! ## The draws for a word -/

/-- A source hands out some numbers, each for a bound, and is left as another source. -/
inductive Draws {σ : Type u} (draw? : Nat → σ → Option (Nat × σ)) :
    List (Nat × Nat) → σ → σ → Prop where
  | nil (source : σ) : Draws draw? [] source source
  | cons {bound n : Nat} {choices : List (Nat × Nat)} {source next last : σ} :
      draw? bound source = some (n, next) → Draws draw? choices next last →
      Draws draw? ((bound, n) :: choices) source last

/-- An accepted word has choices that a walk goes through it with, from whatever source
they come: one for each character, and one for stopping unless nothing leads on. -/
theorem Trim.exists_choices (h : d.Trim) (hs : s < d.size) (hw : d.acceptsFrom s w = true) :
    ∃ choices : List (Nat × Nat), w.length ≤ choices.length ∧
      (∀ choice ∈ choices, choice.2 < choice.1 ∧ ∃ t, choice.1 = d.choices t) ∧
      ∀ {σ : Type u} {draw? : Nat → σ → Option (Nat × σ)} {source last : σ},
        Draws draw? choices source last → ∀ steps word, w.length < steps →
          d.walkOn draw? steps word s source = .ok (word.reverse ++ w, last) := by
  induction w generalizing s with
  | nil =>
      have haccept : d.isAccepting s = true := hw
      by_cases htotal : (d.weights s).total = 0
      · refine ⟨[], Nat.le_refl _, by simp, ?_⟩
        intro σ draw? source last hdraws steps word hsteps
        obtain ⟨steps, rfl⟩ := Nat.exists_eq_succ_of_ne_zero (Nat.ne_of_gt hsteps)
        cases hdraws
        rw [walkOn_succ, if_pos htotal, if_pos haccept, List.append_nil]
      · refine ⟨[(d.choices s, (d.weights s).total)], Nat.zero_le _, ?_, ?_⟩
        · intro choice hchoice
          rw [List.mem_singleton.1 hchoice]
          refine ⟨?_, s, rfl⟩
          rw [choices, if_pos haccept]
          exact Nat.lt_succ_self _
        · intro σ draw? source last hdraws steps word hsteps
          obtain ⟨steps, rfl⟩ := Nat.exists_eq_succ_of_ne_zero (Nat.ne_of_gt hsteps)
          cases hdraws with
          | cons hdraw hdraws =>
              cases hdraws
              rw [walkOn_succ, if_neg htotal, hdraw, List.append_nil]
              exact if_pos rfl
  | cons c w ih =>
      obtain ⟨t, hstep, hw⟩ := acceptsFrom_cons_iff.1 hw
      obtain ⟨rest, hlength, hrest, hwalk⟩ := ih (h.step?_lt hstep) hw
      obtain ⟨n, hn, hpick⟩ := Weights.exists_pick?_of_step? hstep
      have hlt : n < (d.weights s).total := hn
      have hgo : (d.weights s).pick? n = some (c, t) := hpick
      refine ⟨(d.choices s, n) :: rest, Nat.succ_le_succ hlength, ?_, ?_⟩
      · intro choice hchoice
        rcases List.mem_cons.1 hchoice with rfl | hchoice
        · refine ⟨?_, s, rfl⟩
          show n < d.choices s
          rw [choices]
          split <;> omega
        · exact hrest choice hchoice
      · intro σ draw? source last hdraws steps word hsteps
        obtain ⟨steps, rfl⟩ := Nat.exists_eq_succ_of_ne_zero (Nat.ne_zero_of_lt hsteps)
        cases hdraws with
        | cons hdraw hdraws =>
            rw [walkOn_succ, if_neg (by omega), hdraw]
            simp only [if_neg (show ¬ n = (d.weights s).total by omega), hgo]
            rw [hwalk hdraws steps (c :: word) (Nat.lt_of_succ_lt_succ hsteps),
              List.reverse_cons, List.append_assoc]
            rfl

theorem draws_listDraw? {choices : List (Nat × Nat)}
    (h : ∀ choice ∈ choices, choice.2 < choice.1) :
    Draws listDraw? choices (choices.map (·.2)) [] := by
  induction choices with
  | nil => exact .nil _
  | cons choice choices ih =>
      refine .cons (listDraw?_eq_some_iff.2 ⟨rfl, h choice (List.mem_cons_self ..)⟩) ?_
      exact ih fun other hother => h other (List.mem_cons_of_mem choice hother)

/-- Some draws lead through an accepted word and are used up by it. -/
theorem Trim.exists_draws (h : d.Trim) (hs : s < d.size) (hw : d.acceptsFrom s w = true) :
    ∃ draws, ∀ word, d.walkOn listDraw? (w.length + 1) word s draws =
      .ok (word.reverse ++ w, []) := by
  obtain ⟨choices, -, hchoices, hwalk⟩ := h.exists_choices hs hw
  have hdraws := draws_listDraw? fun choice hchoice => (hchoices choice hchoice).1
  exact ⟨_, fun word => hwalk hdraws _ word (Nat.lt_succ_self _)⟩

/-- A walk that uses up its draws stops at once, with the number for stopping if there
is one, or begins with the number of its first character. -/
theorem walkOn_listDraw_cases {steps : Nat} {word : List Char} {draws : List Nat}
    (hok : d.walkOn listDraw? steps word s draws = .ok (v, [])) :
    (v = word.reverse ∧
      draws = if (d.weights s).total = 0 then [] else [(d.weights s).total]) ∨
    ∃ n c t rest steps', draws = n :: rest ∧ (d.weights s).pick? n = some (c, t) ∧
      d.walkOn listDraw? steps' (c :: word) t rest = .ok (v, []) := by
  cases steps with
  | zero => cases hok
  | succ steps =>
      rw [walkOn_succ] at hok
      by_cases htotal : (d.weights s).total = 0
      · rw [if_pos htotal] at hok
        split at hok
        · cases hok
          exact Or.inl ⟨rfl, (if_pos htotal).symm⟩
        · cases hok
      · rw [if_neg htotal] at hok
        cases hdraw : listDraw? (d.choices s) draws with
        | none =>
            rw [hdraw] at hok
            cases hok
        | some next =>
            obtain ⟨n, rest⟩ := next
            obtain ⟨rfl, -⟩ := listDraw?_eq_some_iff.1 hdraw
            rw [hdraw] at hok
            by_cases hstop : n = (d.weights s).total
            · simp only [if_pos hstop] at hok
              cases hok
              left
              rw [if_neg htotal, hstop]
              exact ⟨rfl, rfl⟩
            · simp only [if_neg hstop] at hok
              cases hpick : (d.weights s).pick? n with
              | none =>
                  rw [hpick] at hok
                  cases hok
              | some next =>
                  obtain ⟨c, t⟩ := next
                  rw [hpick] at hok
                  exact Or.inr ⟨n, c, t, rest, steps, rfl, hpick, hok⟩

/-- If a walk goes on after a draw, its word goes on with the character drawn. -/
theorem Trim.exists_eq_cons (h : d.Trim) {steps n t : Nat} {word : List Char} {c : Char}
    {rest : List Nat} (hpick : (d.weights s).pick? n = some (c, t))
    (hok : d.walkOn listDraw? steps (c :: word) t rest = .ok (word.reverse ++ w, [])) :
    t < d.size ∧ ∃ u, w = c :: u := by
  have hmem : Weights.nthStep? (d.row s) n = some (c, t) := by
    rw [← Weights.pick?_ofRow]
    exact hpick
  obtain ⟨u, hu, -, rfl⟩ := Weights.mem_of_nthStep? hmem
  have ht := h.target_lt_row hu
  refine ⟨ht, ?_⟩
  obtain ⟨u, hu, -⟩ := (h.walkOn_spec inRange_listDraw? ht _ _ _).2 _ _ hok
  rw [List.reverse_cons, List.append_assoc] at hu
  exact ⟨u, List.append_cancel_left hu⟩

/-- Lists of draws that are used up by the same word are the same. -/
theorem Trim.draws_unique (h : d.Trim) (hs : s < d.size) {steps steps' : Nat}
    {word word' : List Char} {draws draws' : List Nat}
    (hok : d.walkOn listDraw? steps word s draws = .ok (word.reverse ++ w, []))
    (hok' : d.walkOn listDraw? steps' word' s draws' = .ok (word'.reverse ++ w, [])) :
    draws = draws' := by
  induction w generalizing s steps steps' word word' draws draws' with
  | nil =>
      rcases walkOn_listDraw_cases hok with ⟨-, rfl⟩ | ⟨n, c, t, rest, k, -, hpick, hrest⟩
      · rcases walkOn_listDraw_cases hok' with ⟨-, rfl⟩ | ⟨n, c, t, rest, k, -, hpick, hrest⟩
        · rfl
        · obtain ⟨-, u, hu⟩ := h.exists_eq_cons hpick hrest
          cases hu
      · obtain ⟨-, u, hu⟩ := h.exists_eq_cons hpick hrest
        cases hu
  | cons c w ih =>
      have hnot : ∀ {word : List Char}, word.reverse ++ c :: w ≠ word.reverse := by
        intro word heq
        have := congrArg List.length heq
        simp at this
      rcases walkOn_listDraw_cases hok with ⟨heq, -⟩ | ⟨n, e, t, rest, k, rfl, hpick, hrest⟩
      · exact absurd heq hnot
      · rcases walkOn_listDraw_cases hok' with
          ⟨heq, -⟩ | ⟨n', e', t', rest', k', rfl, hpick', hrest'⟩
        · exact absurd heq hnot
        · obtain ⟨ht, u, hu⟩ := h.exists_eq_cons hpick hrest
          obtain ⟨-, u', hu'⟩ := h.exists_eq_cons hpick' hrest'
          cases hu
          cases hu'
          have hn : n = n' := Weights.pick?_inj (h.ordered_row s) hpick hpick'
          subst hn
          rw [hpick] at hpick'
          cases hpick'
          rw [show word.reverse ++ c :: w = (c :: word).reverse ++ w by simp] at hrest
          rw [show word'.reverse ++ c :: w = (c :: word').reverse ++ w by simp] at hrest'
          rw [ih ht hrest hrest']

end Dfa

namespace Generator

open Dfa

variable {d : Dfa}

theorem trim_minimized (h : d.WellFormed) (hsome : ∃ w, d.accepts w = true) :
    d.minimized.Trim := by
  rcases h.minimized_cases with ⟨hminimal, -⟩ | ⟨-, hnone⟩
  · exact hminimal.toTrim
  · obtain ⟨w, hw⟩ := hsome
    rw [hnone w] at hw
    cases hw

theorem ofDfa_eq_ok (h : d.WellFormed) (hsome : ∃ w, d.accepts w = true) :
    ofDfa d = .ok ⟨d.minimized, none⟩ := by
  have hnonempty : ¬ d.minimized.isEmpty = true := by
    rw [(trim_minimized h hsome).isEmpty_iff]
    intro hnone
    obtain ⟨w, hw⟩ := hsome
    rw [← h.accepts_minimized, hnone w] at hw
    cases hw
  exact if_neg hnonempty

/-- A walk through the minimal automaton fails only if the source is exhausted, and gives
an accepted word. -/
theorem walk_minimized_spec (h : d.WellFormed) (hsome : ∃ w, d.accepts w = true)
    {σ : Type u} {draw? : Nat → σ → Option (Nat × σ)} (hdraw : InRange draw?) (steps : Nat)
    (source : σ) :
    (∀ fault, d.minimized.walk draw? steps source = .error fault →
      fault = .sourceExhausted) ∧
    ∀ w rest, d.minimized.walk draw? steps source = .ok (w, rest) → d.accepts w = true := by
  have htrim := trim_minimized h hsome
  obtain ⟨hfault, hok⟩ := htrim.walkOn_spec hdraw htrim.start_lt steps [] source
  refine ⟨hfault, fun w rest hw => ?_⟩
  obtain ⟨v, rfl, hv⟩ := hok w rest hw
  rw [← h.accepts_minimized]
  exact hv

/-- An automaton that accepts some word has a generator. Whatever the numbers drawn, as
long as they are in range, a walk of the generator fails only for want of numbers, and
gives an accepted word; and each accepted word is given by exactly one list of numbers. -/
theorem ofDfa_walks (d : Dfa) (h : d.WellFormed) (hsome : ∃ w, d.accepts w = true) :
    ∃ g, ofDfa d = .ok g ∧
      (∀ {σ : Type u} (draw? : Nat → σ → Option (Nat × σ)), InRange draw? →
        ∀ steps source,
          (∀ fault, g.automaton.walk draw? steps source = .error fault →
            fault = .sourceExhausted) ∧
          ∀ w rest, g.automaton.walk draw? steps source = .ok (w, rest) →
            d.accepts w = true) ∧
      (∀ source,
        (∀ fault, g.generate source = .error fault → fault = .sourceExhausted) ∧
        ∀ w rest, g.generate source = .ok (w, rest) → d.accepts w = true) ∧
      ∀ w, d.accepts w = true →
        ∃ draws, g.automaton.walk listDraw? (w.length + 1) draws = .ok (w, []) ∧
          ∀ steps draws', g.automaton.walk listDraw? steps draws' = .ok (w, []) →
            draws' = draws := by
  have htrim := trim_minimized h hsome
  refine ⟨_, ofDfa_eq_ok h hsome, ?_, ?_, ?_⟩
  · intro σ draw? hdraw steps source
    exact walk_minimized_spec h hsome hdraw steps source
  · intro source
    exact walk_minimized_spec h hsome inRange_draw? _ source
  · intro w hw
    rw [← h.accepts_minimized] at hw
    obtain ⟨draws, hdraws⟩ := htrim.exists_draws htrim.start_lt hw
    refine ⟨draws, hdraws [], fun steps draws' hok => ?_⟩
    exact htrim.draws_unique htrim.start_lt hok (hdraws [])

theorem ofDfa_walks_splitRange :
    splitRange.WellFormed ∧ splitRange.accepts ['b'] = true ∧
    ∃ g, ofDfa splitRange = .ok g ∧
      ∃ draws, g.automaton.walk listDraw? 2 draws = .ok (['b'], []) := by
  have hsplit : splitRange.WellFormed := ⟨by decide, by decide, by decide⟩
  have hb : splitRange.accepts ['b'] = true := by decide
  obtain ⟨g, hg, -, -, hwords⟩ := ofDfa_walks.{0} splitRange hsplit ⟨['b'], hb⟩
  obtain ⟨draws, hdraws, -⟩ := hwords ['b'] hb
  exact ⟨hsplit, hb, g, hg, draws, hdraws⟩

end Generator

end PatternAutomata
