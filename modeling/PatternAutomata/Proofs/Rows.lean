import PatternAutomata.Dfa.Basic
import PatternAutomata.Proofs.IntervalOrder

/-!
# Rows as partial functions

A row in ascending order is a partial function from characters to states, and
`step?` is that function. Two different rows may be the same function, because an
interval can be cut in pieces; joining touching pieces with a common target undoes
that.

## Main results

* `step?_coalesce`, `joined_coalesce`: joining keeps the function and leaves no two
  pieces that could be joined.
* `Joined.eq_of_step?_eq`: a joined row is determined by its function.
-/

namespace PatternAutomata.Row

open PatternAutomata.Interval

/-- The intervals of a row with their targets. -/
def entries (row : Row) : List (Interval × Nat) := row.map fun t => (t.on, t.target)

/-- The row with other targets. -/
def relabel (f : Nat → Nat) (row : Row) : Row := row.map fun t => ⟨t.on, f t.target⟩

theorem step?_eq_valueAt? (row : Row) (c : Char) : row.step? c = valueAt? row.entries c := by
  rw [step?, valueAt?, entries, List.find?_map, Option.map_map]
  rfl

@[simp] theorem keys_entries (row : Row) : row.entries.map (·.1) = row.map (·.on) := by
  rw [entries, List.map_map]
  rfl

@[simp] theorem step?_nil (c : Char) : step? [] c = none := rfl

theorem step?_cons (t : Transition) (row : Row) (c : Char) :
    step? (t :: row) c = if c ∈ t.on then some t.target else step? row c := by
  rw [step?_eq_valueAt?, step?_eq_valueAt?]
  exact valueAt?_cons (t.on, t.target) row.entries c

theorem step?_eq_some_iff {row : Row} (h : row.Ordered) {c : Char} {s : Nat} :
    row.step? c = some s ↔ ∃ t ∈ row, c ∈ t.on ∧ t.target = s := by
  rw [step?_eq_valueAt?, valueAt?_eq_some_iff (by rw [keys_entries]; exact h)]
  constructor
  · intro hi
    obtain ⟨i, hi, hc⟩ := hi
    obtain ⟨t, ht, heq⟩ := List.mem_map.1 hi
    cases heq
    exact ⟨t, ht, hc, rfl⟩
  · intro ht
    obtain ⟨t, ht, hc, rfl⟩ := ht
    exact ⟨t.on, List.mem_map.2 ⟨t, ht, rfl⟩, hc⟩

theorem step?_eq_none_iff {row : Row} {c : Char} :
    row.step? c = none ↔ ∀ t ∈ row, c ∉ t.on := by
  simp [step?]

/-- A step leads to the target of a transition. -/
theorem exists_mem_of_step? {row : Row} {c : Char} {s : Nat} (h : row.step? c = some s) :
    ∃ t ∈ row, c ∈ t.on ∧ t.target = s := by
  rw [step?_eq_valueAt?] at h
  obtain ⟨i, hi, hc⟩ := exists_mem_of_valueAt? h
  obtain ⟨t, ht, heq⟩ := List.mem_map.1 hi
  cases heq
  exact ⟨t, ht, hc, rfl⟩

theorem ordered_cons {t : Transition} {row : Row} :
    Ordered (t :: row) ↔ (∀ u ∈ row, t.on.Before u.on) ∧ Ordered row := by
  simp [Ordered, Ascending]

theorem Joined.ordered {row : Row} (h : row.Joined) : row.Ordered := by
  rw [Ordered, Ascending, List.pairwise_map]
  exact h.imp fun h => h.1

/-! ## Relabelling -/

theorem step?_relabel (f : Nat → Nat) (row : Row) (c : Char) :
    (row.relabel f).step? c = (row.step? c).map f := by
  induction row with
  | nil => rfl
  | cons t row ih =>
      rw [relabel, List.map_cons, step?_cons, step?_cons, ← relabel, ih]
      split <;> rfl

theorem ordered_relabel (f : Nat → Nat) {row : Row} : (row.relabel f).Ordered ↔ row.Ordered := by
  rw [Ordered, Ordered, relabel, List.map_map]
  rfl

theorem joined_relabel {f : Nat → Nat} {row : Row} (h : row.Joined)
    (hf : ∀ t ∈ row, ∀ u ∈ row, f t.target = f u.target → t.target = u.target) :
    (row.relabel f).Joined := by
  rw [Joined, relabel, List.pairwise_map]
  refine List.Pairwise.imp_of_mem (fun {t u} ht hu htu => ⟨htu.1, ?_⟩) h
  intro hsame
  exact htu.2 ⟨hf t ht u hu hsame.1, hsame.2⟩

/-! ## Joining -/

/-- Putting a transition in front, joined or not, adds its characters. -/
theorem step?_glue {t : Transition} {row : Row} (h : ∀ u ∈ row, t.on.Before u.on) (c : Char) :
    (glue t row).step? c = step? (t :: row) c := by
  cases row with
  | nil => rfl
  | cons u row =>
      by_cases hjoin : t.target = u.target ∧ t.on.Touches u.on
      · have hnear : c ∈ t.on.hull u.on ↔ c ∈ t.on ∨ c ∈ u.on := by
          have h1 := touches_iff.1 hjoin.2
          have h2 := before_iff.1 (h u (by simp))
          have h3 := t.on.bottom_le_top
          have h4 := u.on.bottom_le_top
          rw [mem_iff, mem_iff, mem_iff, bottom_hull, top_hull]
          omega
        rw [glue, if_pos hjoin, step?_cons, step?_cons, step?_cons]
        by_cases h1 : c ∈ t.on
        · rw [if_pos (hnear.2 (Or.inl h1)), if_pos h1]
        · by_cases h2 : c ∈ u.on
          · rw [if_pos (hnear.2 (Or.inr h2)), if_neg h1, if_pos h2, hjoin.1]
          · rw [if_neg (by rw [hnear]; exact not_or.2 ⟨h1, h2⟩), if_neg h1, if_neg h2]
      · rw [glue, if_neg hjoin]

theorem le_bottom_glue {t : Transition} {row : Row} (h : ∀ u ∈ row, t.on.Before u.on) :
    ∀ v ∈ glue t row, t.on.bottom ≤ v.on.bottom := by
  have hle := t.on.bottom_le_top
  have hrow : ∀ v ∈ row, t.on.bottom ≤ v.on.bottom := by
    intro v hv
    have := before_iff.1 (h v hv)
    omega
  intro v hv
  cases row with
  | nil =>
      rw [glue, List.mem_singleton] at hv
      subst hv
      exact Nat.le_refl _
  | cons u row =>
      by_cases hjoin : t.target = u.target ∧ t.on.Touches u.on
      · rw [glue, if_pos hjoin, List.mem_cons] at hv
        rcases hv with rfl | hv
        · have := hrow u (by simp)
          rw [bottom_hull]
          omega
        · exact hrow v (by simp [hv])
      · rw [glue, if_neg hjoin, List.mem_cons] at hv
        rcases hv with rfl | hv
        · exact Nat.le_refl _
        · exact hrow v hv

theorem joined_glue {t : Transition} {row : Row} (h : ∀ u ∈ row, t.on.Before u.on)
    (hrow : row.Joined) : (glue t row).Joined := by
  cases row with
  | nil => exact List.pairwise_singleton _ _
  | cons u row =>
      obtain ⟨hu, htail⟩ := List.pairwise_cons.1 hrow
      have h1 := before_iff.1 (h u (by simp))
      have h2 := t.on.bottom_le_top
      have h3 := u.on.bottom_le_top
      by_cases hjoin : t.target = u.target ∧ t.on.Touches u.on
      · rw [glue, if_pos hjoin]
        refine List.pairwise_cons.2 ⟨?_, htail⟩
        intro v hv
        obtain ⟨huv, hnot⟩ := hu v hv
        have h4 := before_iff.1 huv
        have h5 := v.on.bottom_le_top
        rw [hjoin.1, before_iff, touches_iff, bottom_hull, top_hull]
        rw [touches_iff] at hnot
        omega
      · rw [glue, if_neg hjoin]
        refine List.pairwise_cons.2 ⟨?_, hrow⟩
        intro v hv
        refine ⟨h v hv, ?_⟩
        rcases List.mem_cons.1 hv with rfl | hv
        · exact hjoin
        · intro hsame
          have h4 := before_iff.1 (hu v hv).1
          have h5 := touches_iff.1 hsame.2
          have h6 := v.on.bottom_le_top
          omega

theorem target_mem_glue {t v : Transition} {row : Row} (hv : v ∈ glue t row) :
    ∃ u ∈ t :: row, u.target = v.target := by
  cases row with
  | nil => exact ⟨v, hv, rfl⟩
  | cons u row =>
      by_cases hjoin : t.target = u.target ∧ t.on.Touches u.on
      · rw [glue, if_pos hjoin, List.mem_cons] at hv
        rcases hv with rfl | hv
        · exact ⟨t, by simp, rfl⟩
        · exact ⟨v, by simp [hv], rfl⟩
      · rw [glue, if_neg hjoin] at hv
        exact ⟨v, hv, rfl⟩

@[simp] theorem coalesce_cons (t : Transition) (row : Row) :
    coalesce (t :: row) = glue t (coalesce row) := rfl

/-- A joined row begins no earlier than the row. -/
theorem le_bottom_coalesce {row : Row} (h : row.Ordered) {n : Nat}
    (hn : ∀ u ∈ row, n ≤ u.on.bottom) : ∀ v ∈ coalesce row, n ≤ v.on.bottom := by
  induction row generalizing n with
  | nil => simp [coalesce]
  | cons u row ih =>
      obtain ⟨hu, hrow⟩ := ordered_cons.1 h
      have hbefore : ∀ v ∈ coalesce row, u.on.Before v.on := by
        intro v hv
        exact before_iff.2 (ih hrow (fun w hw => before_iff.1 (hu w hw)) v hv)
      intro v hv
      have h1 := hn u (by simp)
      have h2 := le_bottom_glue hbefore v hv
      omega

theorem before_coalesce {t : Transition} {row : Row} (h : Ordered (t :: row)) :
    ∀ v ∈ coalesce row, t.on.Before v.on := by
  obtain ⟨ht, hrow⟩ := ordered_cons.1 h
  intro v hv
  exact before_iff.2 (le_bottom_coalesce hrow (fun u hu => before_iff.1 (ht u hu)) v hv)

/-- Joining touching transitions keeps the function of a row. -/
theorem step?_coalesce {row : Row} (h : row.Ordered) (c : Char) :
    (coalesce row).step? c = row.step? c := by
  induction row with
  | nil => rfl
  | cons t row ih =>
      rw [coalesce_cons, step?_glue (before_coalesce h), step?_cons, step?_cons,
        ih (ordered_cons.1 h).2]

/-- Nothing is left to be joined. -/
theorem joined_coalesce {row : Row} (h : row.Ordered) : (coalesce row).Joined := by
  induction row with
  | nil => exact List.Pairwise.nil
  | cons t row ih =>
      rw [coalesce_cons]
      exact joined_glue (before_coalesce h) (ih (ordered_cons.1 h).2)

theorem target_mem_coalesce {row : Row} {v : Transition} (hv : v ∈ coalesce row) :
    ∃ u ∈ row, u.target = v.target := by
  induction row generalizing v with
  | nil => simp [coalesce] at hv
  | cons t row ih =>
      rw [coalesce_cons] at hv
      obtain ⟨u, hu, htarget⟩ := target_mem_glue hv
      rcases List.mem_cons.1 hu with rfl | hu
      · exact ⟨u, by simp, htarget⟩
      · obtain ⟨w, hw, hwu⟩ := ih hu
        exact ⟨w, by simp [hw], hwu.trans htarget⟩

/-- A joined row stays as it is. -/
theorem coalesce_of_joined {row : Row} (h : row.Joined) : coalesce row = row := by
  induction row with
  | nil => rfl
  | cons t row ih =>
      obtain ⟨ht, hrow⟩ := List.pairwise_cons.1 h
      rw [coalesce_cons, ih hrow]
      cases row with
      | nil => rfl
      | cons u row => rw [glue, if_neg (ht u (by simp)).2]

/-! ## A joined row is determined by its function -/

/-- The first interval of an ordered row has the least character. -/
private theorem bottom_le_of_step? {t : Transition} {row : Row} (h : Ordered (t :: row))
    {c : Char} {s : Nat} (hc : step? (t :: row) c = some s) : t.on.bottom ≤ c.ordinal.val := by
  obtain ⟨u, hu, hcu, -⟩ := exists_mem_of_step? hc
  have h1 := mem_iff.1 hcu
  have h2 := t.on.bottom_le_top
  rcases List.mem_cons.1 hu with rfl | hu
  · omega
  · have h3 := before_iff.1 ((ordered_cons.1 h).1 u hu)
    omega

private theorem step?_lo (t : Transition) (row : Row) :
    step? (t :: row) t.on.lo = some t.target := by
  rw [step?_cons, if_pos t.on.lo_mem]

/-- The first interval goes on for as long as the function has its value. -/
private theorem top_le_of_step? {t u : Transition} {row row' : Row} (h : Joined (t :: row))
    (hlo : t.on.bottom = u.on.bottom)
    (heq : ∀ c, step? (t :: row) c = step? (u :: row') c) : u.on.top ≤ t.on.top := by
  by_cases hlt : t.on.top < u.on.top
  · exfalso
    obtain ⟨c, hc⟩ := exists_ordinal_eq (show t.on.top + 1 ≤ u.on.hi.ordinal.val from hlt)
    have hct : c ∉ t.on := by
      rw [mem_iff]
      omega
    have hcu : c ∈ u.on := by
      have := t.on.bottom_le_top
      rw [mem_iff]
      omega
    have hfirst : t.on.lo = u.on.lo := Scalar.eq_iff.2 hlo
    have htarget : t.target = u.target := by
      have h1 := heq t.on.lo
      rw [step?_lo, hfirst, step?_lo] at h1
      exact Option.some.inj h1
    have hnext := heq c
    rw [step?_cons, if_neg hct, step?_cons, if_pos hcu] at hnext
    obtain ⟨v, hv, hcv, hvtarget⟩ := exists_mem_of_step? hnext
    obtain ⟨htv, hnot⟩ := (List.pairwise_cons.1 h).1 v hv
    have h1 := before_iff.1 htv
    have h2 := mem_iff.1 hcv
    exact hnot ⟨by rw [hvtarget, htarget], touches_iff.2 (Or.inl (by omega))⟩
  · omega

private theorem step?_tail {t : Transition} {row : Row} (h : Ordered (t :: row)) (c : Char) :
    row.step? c = if c ∈ t.on then none else step? (t :: row) c := by
  rw [step?_cons]
  by_cases hc : c ∈ t.on
  · rw [if_pos hc, step?_eq_none_iff]
    intro u hu
    exact ((ordered_cons.1 h).1 u hu).not_mem_right hc
  · rw [if_neg hc, if_neg hc]

/-- Joined rows with the same function are equal. -/
theorem Joined.eq_of_step?_eq {row row' : Row} (h : row.Joined) (h' : row'.Joined)
    (heq : ∀ c, row.step? c = row'.step? c) : row = row' := by
  induction row generalizing row' with
  | nil =>
      cases row' with
      | nil => rfl
      | cons u row' =>
          have := heq u.on.lo
          rw [step?_lo] at this
          cases this
  | cons t row ih =>
      cases row' with
      | nil =>
          have := heq t.on.lo
          rw [step?_lo] at this
          cases this
      | cons u row' =>
          have hlo : t.on.bottom = u.on.bottom := by
            have h1 := bottom_le_of_step? h.ordered ((heq u.on.lo).trans (step?_lo u row'))
            have h2 := bottom_le_of_step? h'.ordered
              ((heq t.on.lo).symm.trans (step?_lo t row))
            exact Nat.le_antisymm h1 h2
          have hhi : t.on.top = u.on.top :=
            Nat.le_antisymm (top_le_of_step? h' hlo.symm fun c => (heq c).symm)
              (top_le_of_step? h hlo heq)
          have hon : t.on = u.on := eq_of_ends hlo hhi
          have htarget : t.target = u.target := by
            have h1 := heq t.on.lo
            rw [step?_lo, hon, step?_lo] at h1
            exact Option.some.inj h1
          have htail : row = row' := by
            refine ih (List.pairwise_cons.1 h).2 (List.pairwise_cons.1 h').2 fun c => ?_
            rw [step?_tail h.ordered, step?_tail h'.ordered, heq, hon]
          obtain ⟨on, target⟩ := t
          cases hon
          cases htarget
          rw [htail]

end PatternAutomata.Row
