import PatternAutomata.Dfa.Complement
import PatternAutomata.Pattern.Language
import PatternAutomata.Proofs.Runs

/-!
# Total automata and complement

Filling the gaps of a row gives a row that leads somewhere on every character: where the
row led before, and to the new state elsewhere. The new state only leads to itself, so
the total automaton accepts the same words, and every word leads to exactly one of its
states. Exchanging the states that accept with the others therefore gives the complement
over all characters.

## Main results

* `step?_fill`: the steps of a row whose gaps are filled.
* `stepAll?_totalize`: where a word leads in the total automaton.
* `WellFormed.accepts_totalize`: the words of the total automaton.
* `language_complement`: the complement of the language.
* `Canonical.complement`: its rows are joined if those of the automaton are.
-/

namespace PatternAutomata

open PatternAutomata.Interval

namespace Row

/-! ## Filling the gaps of a row -/

variable {dead : Nat} {start : Option Char} {row : Row} {b c lo : Char} {t u : Transition}

/-- The transition to the new state on the characters before a given one, if there are
any. -/
def gap (dead : Nat) (b lo : Char) : Row :=
  ((IntervalSet.upFrom b).below? lo).toList.map (⟨·, dead⟩)

theorem fill_cons (dead : Nat) (b : Char) (t : Transition) (row : Row) :
    fill dead (some b) (t :: row) =
      gap dead b t.on.lo ++ t :: fill dead (Scalar.next? t.on.hi) row := rfl

theorem mem_gap (hu : u ∈ gap dead b lo) :
    u.target = dead ∧ u.on.bottom = b.ordinal.val ∧ u.on.top < lo.ordinal.val := by
  obtain ⟨k, hk, rfl⟩ := List.mem_map.1 hu
  obtain ⟨hbottom, -, htop⟩ := of_mem_below? (Option.mem_toList.1 hk)
  exact ⟨rfl, hbottom, htop⟩

theorem ordered_gap (dead : Nat) (b lo : Char) : (gap dead b lo).Ordered := by
  unfold gap
  cases (IntervalSet.upFrom b).below? lo with
  | none => exact List.Pairwise.nil
  | some k => exact List.pairwise_singleton _ _

/-- The characters before the given one lead to the new state. -/
theorem step?_gap_append (row : Row) (hb : b ≤ c) :
    step? (gap dead b lo ++ row) c = if c < lo then some dead else step? row c := by
  by_cases hlow : c < lo
  · obtain ⟨k, hk, hck⟩ := mem_below?.2 ⟨mem_upFrom.2 hb, hlow⟩
    rw [gap, Option.mem_def.1 hk, Option.toList_some, List.map_singleton,
      List.singleton_append, step?_cons, if_pos hck, if_pos hlow]
  · rw [if_neg hlow]
    unfold gap
    cases hk : (IntervalSet.upFrom b).below? lo with
    | none => rfl
    | some k =>
        have hck : c ∉ k := by
          intro hck
          exact hlow (mem_below?.1 ⟨k, hk, hck⟩).2
        rw [Option.toList_some, List.map_singleton, List.singleton_append, step?_cons,
          if_neg hck]

/-- A row whose gaps are filled begins where the filling begins. -/
theorem from_of_mem_fill (h : row.Ordered) (hstart : ∀ t ∈ row, From start t.on.lo)
    (ht : t ∈ row.fill dead start) : From start t.on.lo := by
  induction row generalizing start with
  | nil =>
      cases start with
      | none => cases ht
      | some b =>
          rw [List.mem_singleton.1 ht]
          exact from_some.2 (Char.le_refl b)
  | cons u row ih =>
      obtain ⟨b, rfl, hb⟩ := hstart u (List.mem_cons_self ..)
      obtain ⟨hbefore, hrow⟩ := ordered_cons.1 h
      rw [fill_cons] at ht
      rcases List.mem_append.1 ht with ht | ht
      · obtain ⟨-, hbottom, -⟩ := mem_gap ht
        exact from_some.2 (Scalar.le_iff.2 (Nat.le_of_eq hbottom.symm))
      · rcases List.mem_cons.1 ht with rfl | ht
        · exact from_some.2 hb
        · have hlater := lt_of_from_next? (ih hrow (fun v hv => from_next? (hbefore v hv)) ht)
          have hle := u.on.bottom_le_top
          refine from_some.2 (Char.le_trans hb (Scalar.le_iff.2 ?_))
          rw [Scalar.lt_iff] at hlater
          exact Nat.le_of_lt (Nat.lt_of_le_of_lt hle hlater)

theorem ordered_fill (dead : Nat) (h : row.Ordered) (hstart : ∀ t ∈ row, From start t.on.lo) :
    (row.fill dead start).Ordered := by
  induction row generalizing start with
  | nil =>
      cases start with
      | none => exact List.Pairwise.nil
      | some b => exact List.pairwise_singleton _ _
  | cons t row ih =>
      obtain ⟨b, rfl, hb⟩ := hstart t (List.mem_cons_self ..)
      obtain ⟨hbefore, hrow⟩ := ordered_cons.1 h
      have hnext : ∀ u ∈ row, From (Scalar.next? t.on.hi) u.on.lo :=
        fun u hu => from_next? (hbefore u hu)
      have hlater : ∀ u ∈ fill dead (Scalar.next? t.on.hi) row, t.on.Before u.on :=
        fun u hu => lt_of_from_next? (from_of_mem_fill hrow hnext hu)
      have hle := t.on.bottom_le_top
      rw [fill_cons, Ordered, List.map_append, Ascending, List.pairwise_append]
      refine ⟨ordered_gap _ _ _, ordered_cons.2 ⟨hlater, ih hrow hnext⟩, ?_⟩
      intro i hi j hj
      obtain ⟨u, hu, rfl⟩ := List.mem_map.1 hi
      obtain ⟨v, hv, rfl⟩ := List.mem_map.1 hj
      have htop : u.on.top < t.on.bottom := (mem_gap hu).2.2
      rw [before_iff]
      rcases List.mem_cons.1 hv with rfl | hv
      · exact htop
      · have hafter := before_iff.1 (hlater v hv)
        omega

theorem mem_fill (ht : t ∈ row.fill dead start) : t ∈ row ∨ t.target = dead := by
  induction row generalizing start with
  | nil =>
      cases start with
      | none => cases ht
      | some b =>
          rw [List.mem_singleton.1 ht]
          exact Or.inr rfl
  | cons u row ih =>
      cases start with
      | none => exact Or.inl ht
      | some b =>
          rw [fill_cons] at ht
          rcases List.mem_append.1 ht with ht | ht
          · exact Or.inr (mem_gap ht).1
          · rcases List.mem_cons.1 ht with rfl | ht
            · exact Or.inl (List.mem_cons_self ..)
            · exact (ih ht).imp_left (List.mem_cons_of_mem u)

/-- Filled gaps are apart from each other, and lead elsewhere than what is between
them. -/
theorem joined_fill (h : row.Joined) (hdead : ∀ t ∈ row, t.target ≠ dead)
    (hstart : ∀ t ∈ row, From start t.on.lo) : (row.fill dead start).Joined := by
  induction row generalizing start with
  | nil =>
      cases start with
      | none => exact List.Pairwise.nil
      | some b => exact List.pairwise_singleton _ _
  | cons t row ih =>
      obtain ⟨b, rfl, hb⟩ := hstart t (List.mem_cons_self ..)
      obtain ⟨happart, hrow⟩ := List.pairwise_cons.1 h
      have hordered := Joined.ordered hrow
      have hdead' : ∀ u ∈ row, u.target ≠ dead := fun u hu => hdead u (List.mem_cons_of_mem t hu)
      have hnext : ∀ u ∈ row, From (Scalar.next? t.on.hi) u.on.lo :=
        fun u hu => from_next? (happart u hu).1
      have hlater : ∀ u ∈ fill dead (Scalar.next? t.on.hi) row, t.on.Before u.on :=
        fun u hu => lt_of_from_next? (from_of_mem_fill hordered hnext hu)
      have hle := t.on.bottom_le_top
      have ht := hdead t (List.mem_cons_self ..)
      rw [fill_cons, Joined, List.pairwise_append]
      refine ⟨?_, List.pairwise_cons.2 ⟨fun u hu => ⟨hlater u hu, fun hjoin => ?_⟩,
        ih hrow hdead' hnext⟩, fun u hu v hv => ?_⟩
      · unfold gap
        cases (IntervalSet.upFrom b).below? t.on.lo <;> simp
      · rcases mem_fill hu with hu | hu
        · exact (happart u hu).2 hjoin
        · exact ht (hjoin.1.trans hu)
      · obtain ⟨htarget, -, htop⟩ := mem_gap hu
        have htop : u.on.top < t.on.bottom := htop
        rcases List.mem_cons.1 hv with rfl | hv
        · exact ⟨before_iff.2 htop, fun hjoin => ht (hjoin.1.symm.trans htarget)⟩
        · have hafter := before_iff.1 (hlater v hv)
          have hle' := u.on.bottom_le_top
          have hle'' := v.on.bottom_le_top
          refine ⟨before_iff.2 (by omega), fun hjoin => ?_⟩
          have htouch := touches_iff.1 hjoin.2
          omega

theorem step?_eq_none_of_lt (h : Row.Ordered (t :: row)) (hc : c < t.on.lo) :
    step? (t :: row) c = none := by
  have hlow : c.ordinal.val < t.on.bottom := Scalar.lt_iff.1 hc
  have hle := t.on.bottom_le_top
  rw [step?_eq_none_iff]
  intro u hu hcu
  have hmem := mem_iff.1 hcu
  rcases List.mem_cons.1 hu with rfl | hu
  · omega
  · have hbefore := before_iff.1 ((ordered_cons.1 h).1 u hu)
    omega

/-- From its beginning on, a row whose gaps are filled leads where the row leads, and to
the new state elsewhere. -/
theorem step?_fill (dead : Nat) (h : row.Ordered) (hstart : ∀ t ∈ row, From start t.on.lo)
    (hc : From start c) : (row.fill dead start).step? c = some ((row.step? c).getD dead) := by
  induction row generalizing start with
  | nil =>
      obtain ⟨b, rfl, hb⟩ := hc
      rw [fill, step?_cons, if_pos (mem_upFrom.2 hb)]
      rfl
  | cons t row ih =>
      obtain ⟨b, rfl, -⟩ := hstart t (List.mem_cons_self ..)
      obtain ⟨hbefore, hrow⟩ := ordered_cons.1 h
      rw [fill_cons, step?_gap_append _ (from_some.1 hc)]
      by_cases hlow : c < t.on.lo
      · rw [if_pos hlow, step?_eq_none_of_lt h hlow]
        rfl
      · rw [if_neg hlow, step?_cons, step?_cons t row c]
        by_cases hct : c ∈ t.on
        · rw [if_pos hct, if_pos hct]
          rfl
        · rw [if_neg hct, if_neg hct]
          refine ih hrow (fun u hu => from_next? (hbefore u hu)) (from_next? ?_)
          rw [mem_iff] at hct
          rw [Scalar.lt_iff] at hlow ⊢
          have hbottom : t.on.bottom = t.on.lo.ordinal.val := rfl
          have htop : t.on.top = t.on.hi.ordinal.val := rfl
          omega

theorem step?_fill_least (dead : Nat) (h : row.Ordered) (c : Char) :
    (row.fill dead (some Scalar.least)).step? c = some ((row.step? c).getD dead) :=
  step?_fill dead h (fun t _ => from_least t.on.lo) (from_least c)

theorem ordered_fill_least (dead : Nat) (h : row.Ordered) :
    (row.fill dead (some Scalar.least)).Ordered :=
  ordered_fill dead h fun t _ => from_least t.on.lo

theorem joined_fill_least (h : row.Joined) (hdead : ∀ t ∈ row, t.target ≠ dead) :
    (row.fill dead (some Scalar.least)).Joined :=
  joined_fill h hdead fun t _ => from_least t.on.lo

/-- On a character that a row leads somewhere on, it has one transition. -/
theorem countP_eq_one (h : row.Ordered) {s : Nat} (hstep : row.step? c = some s) :
    row.countP (fun t => decide (c ∈ t.on)) = 1 := by
  induction row with
  | nil => cases hstep
  | cons t row ih =>
      obtain ⟨hbefore, hrow⟩ := ordered_cons.1 h
      rw [step?_cons] at hstep
      by_cases hc : c ∈ t.on
      · have hnone : row.countP (fun t => decide (c ∈ t.on)) = 0 := by
          rw [List.countP_eq_zero]
          intro u hu
          rw [decide_eq_true_iff]
          exact (hbefore u hu).not_mem_right hc
        rw [List.countP_cons, hnone, decide_eq_true hc]
        rfl
      · rw [if_neg hc] at hstep
        rw [List.countP_cons, ih hrow hstep, decide_eq_false hc]
        rfl

end Row

namespace Dfa

variable {d : Dfa} {s t : Nat} {w : List Char}

/-- In the total automaton each state leads somewhere on each character. -/
theorem WellFormed.step?_totalize (h : d.WellFormed) (hs : s ≤ d.size) (c : Char) :
    d.totalize.step? s c = some ((d.step? s c).getD d.size) := by
  rw [step?, row_totalize hs, Row.step?_fill_least d.size (h.ordered_row s), step?]

theorem WellFormed.totalize (h : d.WellFormed) : d.totalize.WellFormed := by
  have hstate : ∀ state ∈ d.totalize.states, ∃ s ≤ d.size,
      state.row = (d.row s).fill d.size (some Scalar.least) := by
    intro state hstate
    obtain ⟨s, hs, rfl⟩ := List.mem_iff_getElem.1 hstate
    have hle : s ≤ d.size := by
      have hsize := size_totalize d
      rw [size] at hsize
      omega
    have hget := state_totalize hle
    rw [List.getElem?_eq_getElem hs, Option.some_inj] at hget
    exact ⟨s, hle, by rw [hget]⟩
  refine
    { start_lt := ?_
      target_lt := ?_
      ordered := ?_ }
  · rw [size_totalize]
    exact Nat.lt_succ_of_lt h.start_lt
  · intro state hmem t ht
    obtain ⟨s, hs, hrow⟩ := hstate state hmem
    rw [hrow] at ht
    rw [size_totalize]
    rcases Row.mem_fill ht with hold | hdead
    · exact Nat.lt_succ_of_lt (h.target_lt_row hold)
    · rw [hdead]
      exact Nat.lt_succ_self _
  · intro state hmem
    obtain ⟨s, hs, hrow⟩ := hstate state hmem
    rw [hrow]
    exact Row.ordered_fill_least d.size (h.ordered_row s)

/-- The new state is never left. -/
theorem WellFormed.stepAll?_totalize_dead (h : d.WellFormed) (w : List Char) :
    d.totalize.stepAll? d.size w = some d.size := by
  induction w with
  | nil => rfl
  | cons c w ih =>
      have hstep : d.step? d.size c = none := by
        rw [step?, row_eq_nil (Nat.le_refl _)]
        rfl
      rw [stepAll?_cons, h.step?_totalize (Nat.le_refl _), hstep]
      exact ih

/-- A word leads where it led before, and to the new state if it led nowhere. -/
theorem WellFormed.stepAll?_totalize (h : d.WellFormed) (hs : s < d.size) (w : List Char) :
    d.totalize.stepAll? s w = some ((d.stepAll? s w).getD d.size) := by
  induction w generalizing s with
  | nil => rfl
  | cons c w ih =>
      rw [stepAll?_cons, stepAll?_cons, h.step?_totalize (Nat.le_of_lt hs)]
      cases hstep : d.step? s c with
      | none => exact h.stepAll?_totalize_dead w
      | some t => exact ih (h.step?_lt hstep)

/-- The total automaton accepts the same words. -/
theorem WellFormed.accepts_totalize (h : d.WellFormed) (w : List Char) :
    d.totalize.accepts w = d.accepts w := by
  have hstart : d.totalize.start = d.start := rfl
  rw [accepts, acceptsFrom, hstart, h.stepAll?_totalize h.start_lt, accepts, acceptsFrom,
    Option.any_some, isAccepting_totalize]
  cases d.stepAll? d.start w with
  | none => exact isAccepting_eq_false (Nat.le_refl _)
  | some t => rfl

theorem WellFormed.countP_row_totalize (h : d.WellFormed) (hs : s < d.totalize.size) (c : Char) :
    (d.totalize.row s).countP (fun t => decide (c ∈ t.on)) = 1 := by
  have hle : s ≤ d.size := by
    rw [size_totalize] at hs
    omega
  exact Row.countP_eq_one (h.totalize.ordered_row s) (h.step?_totalize hle c)

theorem WellFormed.complement (h : d.WellFormed) : d.complement.WellFormed := by
  have hstate : ∀ state ∈ d.complement.states, ∃ state' ∈ d.totalize.states,
      state.row = state'.row := by
    intro state hstate
    obtain ⟨state', hstate', rfl⟩ := List.mem_map.1 hstate
    exact ⟨state', hstate', rfl⟩
  have hsize : d.complement.size = d.totalize.size := by
    rw [size_complement, size_totalize]
  refine ⟨?_, ?_, ?_⟩
  · rw [hsize]
    exact h.totalize.start_lt
  · intro state hmem t ht
    obtain ⟨state', hmem', hrow⟩ := hstate state hmem
    rw [hsize]
    exact h.totalize.target_lt state' hmem' t (hrow ▸ ht)
  · intro state hmem
    obtain ⟨state', hmem', hrow⟩ := hstate state hmem
    rw [hrow]
    exact h.totalize.ordered state' hmem'

theorem Canonical.complement (h : d.Canonical) : d.complement.Canonical where
  toWellFormed := h.toWellFormed.complement
  joined := by
    intro state hstate
    obtain ⟨s, hs⟩ := List.mem_iff_getElem?.1 hstate
    have hle : s ≤ d.size := by
      have hlt : s < d.complement.size := (List.getElem?_eq_some_iff.1 hs).1
      rw [size_complement] at hlt
      omega
    rw [state_complement, state_totalize hle, Option.map_some, Option.some_inj] at hs
    rw [← hs]
    exact Row.joined_fill_least (h.joined_row s) fun t ht =>
      Nat.ne_of_lt (h.target_lt_row ht)

theorem WellFormed.accepts_complement (h : d.WellFormed) (w : List Char) :
    d.complement.accepts w = !d.accepts w := by
  have hstart : d.complement.start = d.start := rfl
  rw [accepts, acceptsFrom, hstart, stepAll?_complement, h.stepAll?_totalize h.start_lt,
    accepts, acceptsFrom]
  cases hrun : d.stepAll? d.start w with
  | none =>
      rw [Option.getD_none, Option.any_some, isAccepting_complement (Nat.le_refl _),
        isAccepting_eq_false (Nat.le_refl _)]
      rfl
  | some t =>
      rw [Option.getD_some, Option.any_some, Option.any_some,
        isAccepting_complement (Nat.le_of_lt (h.stepAll?_lt h.start_lt hrun))]

/-- The complement accepts the words over all characters that the automaton does not
accept. -/
theorem language_complement (h : d.WellFormed) : d.complement.language = d.languageᶜ := by
  ext w
  show d.complement.accepts w = true ↔ ¬ d.accepts w = true
  rw [h.accepts_complement, Bool.not_eq_true', Bool.not_eq_true]

end Dfa

end PatternAutomata
