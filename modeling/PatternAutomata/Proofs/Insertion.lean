import PatternAutomata.Checked.Basic
import PatternAutomata.Proofs.IntervalSets
import PatternAutomata.Proofs.Rows

/-!
# Adding a transition to a row

A transition that no entry of a joined row meets has its place between the entries
below and above it, and adding it gives the row with the transition put there and
joined throughout. Going through the row entry by entry and working on the table by
index come to the same.

## Main results

* `Row.insert?_cases`: what insertion gives, or refuses.
* `Row.insert?_coalesce`: transitions added in ascending order.
* `Checked.insertRow_eq`: insertion by index.
-/

namespace PatternAutomata

open PatternAutomata.Interval

namespace Row

variable {t u : Transition} {row pre post : Row}

theorem insert?_append (h : ∀ u ∈ pre, u.on.Before t.on) :
    insert? t (pre ++ post) = (insert? t post).map fun row => pre.foldr glue row := by
  induction pre with
  | nil => simp
  | cons u pre ih =>
    have hu : u.on.hi < t.on.lo := h u List.mem_cons_self
    rw [List.cons_append, insert?, if_pos hu, ih fun v hv => h v (List.mem_cons_of_mem _ hv),
      Option.map_map]
    rfl

theorem insert?_above (h : ∀ u ∈ post, t.on.Before u.on) :
    insert? t post = some (glue t post) := by
  cases post with
  | nil => rfl
  | cons u post =>
    have hu := h u List.mem_cons_self
    rw [before_iff] at hu
    have hlow : ¬ u.on.hi < t.on.lo := by
      rw [hi_lt_lo_iff]
      have := t.on.bottom_le_top
      have := u.on.bottom_le_top
      omega
    rw [insert?, if_neg hlow, if_pos (hi_lt_lo_iff.2 hu)]

theorem insert?_meets (hu : u.on.Meets t.on) : insert? t (u :: post) = none := by
  rw [meets_iff] at hu
  rw [insert?, if_neg (by rw [hi_lt_lo_iff]; omega), if_neg (by rw [hi_lt_lo_iff]; omega)]

/-- The entries of an ordered row that lie below an interval, and those that do not. -/
theorem exists_split (h : row.Ordered) (on : Interval) :
    ∃ pre post, row = pre ++ post ∧
      partitionPoint (fun t => decide (t.on.hi < on.lo)) row = pre.length ∧
      (∀ u ∈ pre, u.on.Before on) ∧ ∀ u ∈ post, ¬ u.on.Before on := by
  obtain ⟨pre, post, rfl, hlength, hpre, hpost⟩ :=
    partitionPoint_split (fun t : Transition => decide (t.on.hi < on.lo))
      ((List.pairwise_map.1 h).imp fun {u v} huv hv => by
        rw [decide_eq_true_eq, hi_lt_lo_iff] at hv ⊢
        rw [before_iff] at huv
        have := v.on.bottom_le_top
        omega)
  exact ⟨pre, post, rfl, hlength, fun u hu => of_decide_eq_true (hpre u hu),
    fun u hu => of_decide_eq_false (hpost u hu)⟩

theorem partitionPoint_append {test : Transition → Bool} (hpre : ∀ u ∈ pre, test u = true)
    (hpost : ∀ u ∈ post, test u = false) : partitionPoint test (pre ++ post) = pre.length := by
  rw [partitionPoint, List.takeWhile_append_of_pos hpre]
  cases post with
  | nil => simp
  | cons u post => simp [hpost u]

/-- An interval that the first entry not below it does not meet lies below all of
these. -/
theorem before_of_head (h : Ordered (u :: post)) (hu : t.on.Before u.on) :
    ∀ v ∈ u :: post, t.on.Before v.on := by
  intro v hv
  rcases List.mem_cons.1 hv with rfl | hv
  · exact hu
  · have huv := (ordered_cons.1 h).1 v hv
    rw [before_iff] at *
    have := u.on.bottom_le_top
    omega

theorem ordered_append : Ordered (pre ++ post) ↔
    pre.Ordered ∧ post.Ordered ∧ ∀ u ∈ pre, ∀ v ∈ post, u.on.Before v.on := by
  simp [Ordered, Ascending, List.pairwise_append]

/-- Where a transition goes, if it goes anywhere. -/
theorem ordered_insertion (h : Ordered (pre ++ post)) (hpre : ∀ u ∈ pre, u.on.Before t.on)
    (hpost : ∀ u ∈ post, t.on.Before u.on) : Ordered (pre ++ t :: post) := by
  obtain ⟨h1, h2, h12⟩ := ordered_append.1 h
  refine ordered_append.2 ⟨h1, ordered_cons.2 ⟨hpost, h2⟩, fun u hu v hv => ?_⟩
  rcases List.mem_cons.1 hv with rfl | hv
  · exact hpre u hu
  · exact h12 u hu v hv

theorem joined_append_right (h : Joined (pre ++ post)) : post.Joined :=
  (List.pairwise_append.1 h).2.1

theorem foldr_glue_eq (h : post.Joined) :
    pre.foldr glue (glue t post) = coalesce (pre ++ t :: post) := by
  rw [coalesce, List.foldr_append, List.foldr_cons]
  congr
  exact (coalesce_of_joined h).symm

/-- Insertion refuses a transition that an entry meets; another one is put between
the entries below and those above it, and joined with its neighbours. -/
theorem insert?_cases (h : row.Joined) (t : Transition) :
    ((∃ u ∈ row, u.on.Meets t.on) ∧ insert? t row = none) ∨
      ∃ pre post, row = pre ++ post ∧ (∀ u ∈ pre, u.on.Before t.on) ∧
        (∀ u ∈ post, t.on.Before u.on) ∧
        insert? t row = some (coalesce (pre ++ t :: post)) := by
  obtain ⟨pre, post, rfl, -, hpre, hpost⟩ := exists_split h.ordered t.on
  have hjoined := joined_append_right h
  rw [insert?_append hpre]
  cases post with
  | nil => exact .inr ⟨pre, [], rfl, hpre, by simp, by simp [insert?, coalesce, glue]⟩
  | cons u post =>
    by_cases hu : t.on.Before u.on
    · have habove := before_of_head hjoined.ordered hu
      refine .inr ⟨pre, u :: post, rfl, hpre, habove, ?_⟩
      rw [insert?_above habove, Option.map_some, foldr_glue_eq hjoined]
    · have hmeets : u.on.Meets t.on := by
        have := hpost u List.mem_cons_self
        rw [before_iff] at hu this
        rw [meets_iff]
        omega
      exact .inl ⟨⟨u, by simp, hmeets⟩, by rw [insert?_meets hmeets]; rfl⟩

/-- No entry on either side of the place of a transition meets it. -/
theorem not_meets_of_split (hpre : ∀ u ∈ pre, u.on.Before t.on)
    (hpost : ∀ u ∈ post, t.on.Before u.on) : ∀ u ∈ pre ++ post, ¬ u.on.Meets t.on := by
  intro u hu
  rw [meets_iff]
  rcases List.mem_append.1 hu with hu | hu
  · have := hpre u hu
    rw [before_iff] at this
    omega
  · have := hpost u hu
    rw [before_iff] at this
    omega

theorem insert?_eq_none_iff (h : row.Joined) :
    insert? t row = none ↔ ∃ u ∈ row, u.on.Meets t.on := by
  rcases insert?_cases h t with ⟨hmeets, hnone⟩ | ⟨pre, post, rfl, hpre, hpost, hsome⟩
  · exact iff_of_true hnone hmeets
  · refine iff_of_false (by simp [hsome]) ?_
    rintro ⟨u, hu, hmeets⟩
    exact not_meets_of_split hpre hpost u hu hmeets

@[simp] theorem step?_append (pre post : Row) (c : Char) :
    step? (pre ++ post) c = (step? pre c).or (step? post c) := by
  induction pre with
  | nil => simp
  | cons u pre ih =>
    rw [List.cons_append, step?_cons, step?_cons, ih]
    split <;> simp

/-- An entry after those below it leads to its target, and nothing else changes. -/
theorem step?_insertion (hpre : ∀ u ∈ pre, u.on.Before t.on) (c : Char) :
    step? (pre ++ t :: post) c = if c ∈ t.on then some t.target else step? (pre ++ post) c := by
  rw [step?_append, step?_cons, step?_append]
  by_cases hc : c ∈ t.on
  · have hnone : step? pre c = none :=
      step?_eq_none_iff.2 fun u hu => (hpre u hu).not_mem_left hc
    rw [if_pos hc, if_pos hc, hnone, Option.none_or]
  · rw [if_neg hc, if_neg hc]

/-- What is added leads to its target, and the rest of the row leads where it led. -/
theorem step?_insert? (h : row.Joined) {row' : Row} (hrow : insert? t row = some row') (c : Char) :
    step? row' c = if c ∈ t.on then some t.target else step? row c := by
  rcases insert?_cases h t with ⟨-, hnone⟩ | ⟨pre, post, rfl, hpre, hpost, hsome⟩
  · simp [hnone] at hrow
  · obtain rfl : coalesce (pre ++ t :: post) = row' := by
      rw [hsome] at hrow
      exact Option.some.inj hrow
    rw [step?_coalesce (ordered_insertion h.ordered hpre hpost), step?_insertion hpre]

/-- Insertion keeps a row joined and leads nowhere else. -/
theorem joined_insert? (h : row.Joined) {row' : Row} (hrow : insert? t row = some row') :
    row'.Joined ∧ ∀ v ∈ row', ∃ u ∈ t :: row, u.target = v.target := by
  rcases insert?_cases h t with ⟨-, hnone⟩ | ⟨pre, post, rfl, hpre, hpost, hsome⟩
  · simp [hnone] at hrow
  · obtain rfl : coalesce (pre ++ t :: post) = row' := by
      rw [hsome] at hrow
      exact Option.some.inj hrow
    refine ⟨joined_coalesce (ordered_insertion h.ordered hpre hpost), fun v hv => ?_⟩
    obtain ⟨u, hu, htarget⟩ := target_mem_coalesce hv
    refine ⟨u, ?_, htarget⟩
    simp only [List.mem_append, List.mem_cons] at hu ⊢
    grind

/-- Joining the entries of a row keeps it below what it is below. -/
theorem coalesce_before (h : row.Ordered) (hrow : ∀ u ∈ row, u.on.Before t.on) :
    ∀ u ∈ coalesce row, u.on.Before t.on := by
  intro u hu
  have hstep := (step?_eq_some_iff (joined_coalesce h).ordered).2 ⟨u, hu, u.on.hi_mem, rfl⟩
  rw [step?_coalesce h] at hstep
  obtain ⟨v, hv, hmem, -⟩ := exists_mem_of_step? hstep
  have hv := hrow v hv
  rw [mem_iff] at hmem
  rw [before_iff] at hv ⊢
  exact Nat.lt_of_le_of_lt hmem.2 hv

/-- A transition above all entries of a row is joined with the joined row. -/
theorem coalesce_append (h : Ordered (row ++ [t])) :
    coalesce (row ++ [t]) = (coalesce row).foldr glue [t] := by
  obtain ⟨hrow, -, hbefore⟩ := ordered_append.1 h
  have hbefore' : ∀ u ∈ coalesce row, u.on.Before t.on :=
    coalesce_before hrow fun u hu => hbefore u hu t (by simp)
  have hordered : Ordered (coalesce row ++ [t]) :=
    ordered_append.2 ⟨(joined_coalesce hrow).ordered, by simp [Ordered, Ascending],
      by simpa using hbefore'⟩
  have hfold : (coalesce row).foldr glue [t] = coalesce (coalesce row ++ [t]) := by
    simp [coalesce, glue]
  rw [hfold]
  refine (joined_coalesce h).eq_of_step?_eq (joined_coalesce hordered) fun c => ?_
  rw [step?_coalesce hordered, step?_coalesce h, step?_append, step?_append, step?_coalesce hrow]

/-- It is added to the joined row as it would be joined with the row. -/
theorem insert?_coalesce (h : Ordered (row ++ [t])) :
    insert? t (coalesce row) = some (coalesce (row ++ [t])) := by
  obtain ⟨hrow, -, hbefore⟩ := ordered_append.1 h
  have hinsert : insert? t (coalesce row ++ []) = _ :=
    insert?_append (coalesce_before hrow fun u hu => hbefore u hu t (by simp))
  rw [List.append_nil] at hinsert
  rw [hinsert, insert?, Option.map_some, coalesce_append h]

/-- What comes of putting a transition in front of a row starts where it does. -/
theorem exists_glue_eq (hrow : ∀ v ∈ row, u.on.Before v.on) :
    ∃ on rest, glue u row = ⟨on, u.target⟩ :: rest ∧ on.bottom = u.on.bottom := by
  cases row with
  | nil => exact ⟨u.on, [], rfl, rfl⟩
  | cons v row =>
    rw [glue]
    split
    · refine ⟨u.on.hull v.on, row, rfl, ?_⟩
      have hv := before_iff.1 (hrow v List.mem_cons_self)
      have := u.on.bottom_le_top
      rw [bottom_hull]
      omega
    · exact ⟨u.on, v :: row, rfl, rfl⟩

/-- Only the last entry of a joined row is joined with what follows. -/
theorem foldr_glue_glue (h : Joined (pre ++ [u])) (hrow : ∀ v ∈ row, u.on.Before v.on) :
    pre.foldr glue (glue u row) = pre ++ glue u row := by
  obtain ⟨on, rest, hglue, hon⟩ := exists_glue_eq hrow
  rw [hglue]
  induction pre with
  | nil => rfl
  | cons w pre ih =>
    obtain ⟨hw, hpre⟩ := List.pairwise_cons.1 h
    rw [List.foldr_cons, ih hpre]
    cases pre with
    | nil =>
      obtain ⟨hbefore, hapart⟩ := hw u (by simp)
      refine if_neg fun hjoin => hapart ⟨hjoin.1, ?_⟩
      have htouch : on.bottom = w.on.top + 1 ∨ w.on.bottom = on.top + 1 :=
        touches_iff.1 hjoin.2
      have := on.bottom_le_top
      have := w.on.bottom_le_top
      rw [before_iff] at hbefore
      rw [touches_iff]
      omega
    | cons v pre => exact if_neg (hw v (by simp)).2

end Row

namespace Checked

open Row

variable {row pre post rest : Row} {on : Interval} {target : Nat}

/-- Joining with the entry above the place is putting the transition in front. -/
theorem joinAbove_eq (pre : Row) (target : Nat) (hpost : ∀ u ∈ post, on.Before u.on) :
    ∃ upper stop, joinAbove (pre ++ post) on target pre.length = pure (upper.hi, stop) ∧
      upper.lo = on.lo ∧
      glue ⟨on, target⟩ post = ⟨upper, target⟩ :: (pre ++ post).drop stop := by
  cases post with
  | nil => exact ⟨on, pre.length, by simp [joinAbove], rfl, by simp [glue]⟩
  | cons u post =>
    have hentry : entry (pre ++ u :: post) pre.length = pure u := entry_eq (by simp)
    have hu : on.hi < u.on.lo := hpost u List.mem_cons_self
    have hlt : pre.length < (pre ++ u :: post).length := by simp
    rw [joinAbove, if_pos hlt, hentry, pure_bind, if_pos hu, glue]
    by_cases hjoin : u.target = target ∧ on.Touches u.on
    · obtain ⟨hlo, hhi⟩ := ends_hull (hpost u List.mem_cons_self)
      refine ⟨on.hull u.on, pre.length + 1, ?_, hlo, ?_⟩
      · rw [if_pos hjoin, hhi]
      · rw [if_pos ⟨hjoin.1.symm, hjoin.2⟩]
        simp
    · refine ⟨on, pre.length, if_neg hjoin, rfl, ?_⟩
      rw [if_neg fun h => hjoin ⟨h.1.symm, h.2⟩]
      simp

theorem joinAbove_meets {u : Transition} (pre : Row) (target : Nat)
    (hu : ¬ on.Before u.on) :
    joinAbove (pre ++ u :: post) on target pre.length =
      throw (.misuse .overlappingTransitions) := by
  have hentry : entry (pre ++ u :: post) pre.length = pure u := entry_eq (by simp)
  have hlt : pre.length < (pre ++ u :: post).length := by simp
  rw [joinAbove, if_pos hlt, hentry, pure_bind]
  exact if_neg hu

/-- Joining with the entry below the place is joining the row throughout. -/
theorem joinBelow_eq (h : pre.Joined) (post : Row) (target : Nat)
    (hpre : ∀ u ∈ pre, u.on.Before on) (hrest : ∀ u ∈ rest, on.Before u.on) :
    ∃ lower start, joinBelow (pre ++ post) on target pre.length = pure (lower.lo, start) ∧
      lower.hi = on.hi ∧
      (pre ++ post).take start ++ ⟨lower, target⟩ :: rest =
        pre.foldr glue (⟨on, target⟩ :: rest) := by
  rcases List.eq_nil_or_concat pre with rfl | ⟨pre, u, rfl⟩
  · exact ⟨on, 0, rfl, rfl, by simp⟩
  · have hentry : entry (pre ++ u :: post) pre.length = pure u := entry_eq (by simp)
    have hu : u.on.Before on := hpre u (by simp)
    simp only [List.concat_eq_append] at h ⊢
    have hrow : ∀ v ∈ (⟨on, target⟩ :: rest : Row), u.on.Before v.on := by
      intro v hv
      rcases List.mem_cons.1 hv with rfl | hv
      · exact hu
      · have hv := hrest v hv
        have := on.bottom_le_top
        rw [before_iff] at *
        omega
    rw [List.foldr_append, List.foldr_cons, List.foldr_nil, foldr_glue_glue h hrow, glue]
    by_cases hjoin : u.target = target ∧ u.on.Touches on
    · obtain ⟨hlo, hhi⟩ := ends_hull hu
      refine ⟨u.on.hull on, pre.length, ?_, hhi, ?_⟩
      · simp [joinBelow, hentry, hjoin, touches_comm.1 hjoin.2, hlo]
      · rw [if_pos hjoin]
        simp [hjoin.1]
    · refine ⟨on, pre.length + 1, ?_, rfl, ?_⟩
      · rw [touches_comm] at hjoin
        simp [joinBelow, hentry, hjoin]
      · rw [if_neg hjoin, List.take_left' (by simp)]
        simp

theorem insertRow_eq (h : row.Joined) (on : Interval) (target : Nat) :
    insertRow row on target = match Row.insert? ⟨on, target⟩ row with
      | some row' => pure row'
      | none => throw (.misuse .overlappingTransitions) := by
  obtain ⟨pre, post, rfl, hplace, hpre, hpost⟩ := exists_split h.ordered on
  have hjoined := joined_append_right h
  rw [insertRow, hplace, insert?_append hpre]
  by_cases hclear : ∀ u ∈ post, on.Before u.on
  · obtain ⟨upper, stop, habove, hlo, hglue⟩ := joinAbove_eq pre target hclear
    have hlower : ∀ u ∈ pre, u.on.Before upper := fun u hu => by
      rw [Before, hlo]
      exact hpre u hu
    have hrest : ∀ u ∈ (pre ++ post).drop stop, upper.Before u.on := fun u hu =>
      (ordered_cons.1 (hglue ▸ (joined_glue hclear hjoined).ordered)).1 u hu
    obtain ⟨lower, start, hbelow, hhi, hrow⟩ :=
      joinBelow_eq (List.pairwise_append.1 h).1 post target hlower hrest
    rw [insert?_above (t := ⟨on, target⟩) hclear, hglue, Option.map_some, ← hrow]
    simp only [habove, ofBounds_eq hlo rfl, hbelow, ofBounds_eq rfl hhi, pure_bind]
  · cases post with
    | nil => simp at hclear
    | cons u post =>
      have hu : ¬ on.Before u.on := fun hu =>
        hclear (before_of_head (t := ⟨on, target⟩) hjoined.ordered hu)
      have hmeets : u.on.Meets on := by
        have := hpost u List.mem_cons_self
        rw [before_iff] at hu this
        rw [meets_iff]
        omega
      rw [insert?_meets (t := ⟨on, target⟩) hmeets, joinAbove_meets pre target hu]
      rfl

theorem insertRow_of_insert? (h : row.Joined) {row' : Row}
    (hrow : Row.insert? ⟨on, target⟩ row = some row') :
    insertRow row on target = pure row' := by
  rw [insertRow_eq h, hrow]

/-- A transition that joins with no entry is put at its place and changes nothing else. -/
theorem insertRow_apart (hpre : ∀ u ∈ pre, u.on.Before on)
    (hpost : ∀ u ∈ post, on.Before u.on)
    (happart : ∀ u ∈ pre ++ post, ¬ (u.target = target ∧ on.Touches u.on)) :
    insertRow (pre ++ post) on target = pure (pre ++ ⟨on, target⟩ :: post) := by
  have hplace : partitionPoint (fun t => decide (t.on.hi < on.lo)) (pre ++ post) = pre.length := by
    refine partitionPoint_append (fun u hu => decide_eq_true (hpre u hu)) fun u hu => ?_
    have hu := hpost u hu
    have := on.bottom_le_top
    have := u.on.bottom_le_top
    rw [before_iff] at hu
    rw [decide_eq_false_iff_not, hi_lt_lo_iff]
    omega
  have habove : joinAbove (pre ++ post) on target pre.length = pure (on.hi, pre.length) := by
    cases post with
    | nil => simp [joinAbove]
    | cons u post =>
      have hentry : entry (pre ++ u :: post) pre.length = pure u := entry_eq (by simp)
      have hu : on.hi < u.on.lo := hpost u List.mem_cons_self
      have hlt : pre.length < (pre ++ u :: post).length := by simp
      rw [joinAbove, if_pos hlt, hentry, pure_bind, if_pos hu, if_neg (happart u (by simp))]
  have hbelow : joinBelow (pre ++ post) on target pre.length = pure (on.lo, pre.length) := by
    rcases List.eq_nil_or_concat pre with rfl | ⟨pre, u, rfl⟩
    · rfl
    · have hentry : entry (pre ++ u :: post) pre.length = pure u := entry_eq (by simp)
      have hu := happart u (by simp)
      simp [joinBelow, hentry, hu]
  rw [insertRow, hplace]
  simp only [habove, hbelow, ofBounds_ends, pure_bind]
  simp

end Checked

end PatternAutomata
