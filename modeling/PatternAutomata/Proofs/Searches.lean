import PatternAutomata.Proofs.CheckedIntervals

/-!
# What a search for an interval finds

In a list of ascending keys the entries that a search for an interval leaves out lie on
either side of it: so the range that it finds is that of the entries asked for, and between
the others there is one place for the interval.

## Main results

* `Interval.searches_exact`: which indices the searches for an interval find, and where the
  interval has its place if they find none.
-/

namespace PatternAutomata

open PatternAutomata.Interval

namespace Interval

variable {is pre mid post : List Interval} {q : Interval} {property : Interval → Prop} {k : Nat}

/-- Between what lies before an interval and what lies after it there is one place for it. -/
theorem ascending_insertIdx_iff (h : Ascending (pre ++ post)) (hpre : ∀ x ∈ pre, x.Before q)
    (hpost : ∀ x ∈ post, q.Before x) (hk : k ≤ (pre ++ post).length) :
    Ascending ((pre ++ post).insertIdx k q) ↔ k = pre.length := by
  obtain ⟨front, back, hsplit, rfl⟩ : ∃ front back, pre ++ post = front ++ back ∧
      front.length = k :=
    ⟨_, _, (List.take_append_drop k _).symm, List.length_take_of_le hk⟩
  have habsurd : ∀ x, x.Before q → q.Before x → False := by
    intro x hxq hqx
    have hq := q.bottom_le_top
    have hx := x.bottom_le_top
    rw [before_iff] at hxq hqx
    omega
  rw [hsplit, insertIdx_length_append, Ascending, List.pairwise_append, List.pairwise_cons]
  constructor
  · rintro ⟨-, ⟨hback, -⟩, hfront⟩
    -- An interval between the two places would be on both sides.
    rcases List.append_eq_append_iff.1 hsplit with ⟨between, rfl, rfl⟩ | ⟨between, rfl, rfl⟩
    · cases between with
      | nil => simp
      | cons x between =>
          exact (habsurd x (hfront x (by simp) q (by simp)) (hpost x (by simp))).elim
    · cases between with
      | nil => simp
      | cons x between => exact (habsurd x (hpre x (by simp)) (hback x (by simp))).elim
  · intro hlength
    obtain ⟨rfl, rfl⟩ := List.append_inj hsplit hlength.symm
    obtain ⟨hpreAsc, hpostAsc, hacross⟩ := List.pairwise_append.1 h
    refine ⟨hpreAsc, ⟨hpost, hpostAsc⟩, fun x hx y hy => ?_⟩
    rcases List.mem_cons.1 hy with rfl | hy
    · exact hpre x hx
    · exact hacross x hx y hy

/-- The range of the middle part of a list, where the other parts lie on either side of an
interval. -/
theorem exact_split (h : Ascending (pre ++ mid ++ post)) (hpre : ∀ x ∈ pre, x.Before q)
    (hpost : ∀ x ∈ post, q.Before x) (hmid : ∀ x ∈ mid, property x)
    (hother : ∀ x, x ∈ pre ∨ x ∈ post → ¬ property x) :
    (⟨pre.length, pre.length + mid.length⟩ : IndexRange).Exact (pre ++ mid ++ post) q
      property where
  start_le := Nat.le_add_right _ _
  stop_le := by simp
  mem_iff := by
    intro k
    have hk : k ∈ (⟨pre.length, pre.length + mid.length⟩ : IndexRange) ↔
        pre.length ≤ k ∧ k < pre.length + mid.length := Iff.rfl
    rw [hk, List.append_assoc]
    constructor
    · rintro ⟨hle, hlt⟩
      have hget : (pre ++ (mid ++ post))[k]? = some (mid[k - pre.length]) := by
        rw [List.getElem?_append_right hle, List.getElem?_append_left (by omega),
          List.getElem?_eq_getElem]
      exact ⟨_, hget, hmid _ (List.getElem_mem _)⟩
    · rintro ⟨x, hget, hx⟩
      by_cases hle : k < pre.length
      · rw [List.getElem?_append_left hle] at hget
        exact absurd hx (hother x (Or.inl (List.mem_of_getElem? hget)))
      · rw [List.getElem?_append_right (by omega)] at hget
        by_cases hlt : k - pre.length < mid.length
        · omega
        · rw [List.getElem?_append_right (by omega)] at hget
          exact absurd hx (hother x (Or.inr (List.mem_of_getElem? hget)))
  place := by
    intro hempty k hk
    obtain rfl : mid = [] := List.eq_nil_of_length_eq_zero (by simpa using hempty)
    rw [List.append_nil] at h hk ⊢
    exact ascending_insertIdx_iff h hpre hpost hk

theorem Clear.not_near {i j : Interval} (h : i.Clear j) : ¬ i.Near j ∧ ¬ j.Near i := by
  rw [Clear] at h
  rw [Near, Near]
  omega

theorem exact_intersecting (h : Ascending is) (q : Interval) :
    (intersecting is q).Exact is q fun i => i.Meets q := by
  obtain ⟨pre, mid, post, rfl, hrange, hpre, hmid, hpost⟩ := intersecting_split h q
  rw [hrange]
  refine exact_split h hpre hpost hmid fun x hx => ?_
  rcases hx with hx | hx
  · exact (hpre x hx).not_meets
  · rw [meets_comm]
    exact (hpost x hx).not_meets

theorem exact_touching (h : Ascending is) (q : Interval) :
    (touching is q).Exact is q fun i => i.Meets q ∨ i.Touches q := by
  obtain ⟨pre, mid, post, rfl, hrange, hpre, hmid, hpost⟩ := touching_split h q
  rw [hrange]
  refine exact_split h (fun x hx => (clear_iff.1 (hpre x hx)).1)
    (fun x hx => (clear_iff.1 (hpost x hx)).1) (fun x hx => near_iff.1 (hmid x hx)) ?_
  intro x hx
  rw [← near_iff]
  rcases hx with hx | hx
  · exact (hpre x hx).not_near.1
  · exact (hpost x hx).not_near.2

/-- In a list of entries with ascending keys, both searches by halving come to an end without
a look beyond the list. One finds the indices of exactly those entries whose keys share a
character with the interval, the other one those of the entries whose keys share a character
with it or touch it. If there are none, the range found begins at the only place where the
interval can be put among the keys so that they still ascend. -/
theorem searches_exact {α : Type} (key : α → Interval) {xs : List α}
    (h : Ascending (xs.map key)) (q : Interval) :
    ∃ meeting near : IndexRange,
      Checked.searchIntersecting key xs q = pure meeting ∧
      Checked.searchTouching key xs q = pure near ∧
      intersecting (xs.map key) q = meeting ∧ touching (xs.map key) q = near ∧
      meeting.Exact (xs.map key) q (fun i => i.Meets q) ∧
      near.Exact (xs.map key) q (fun i => i.Meets q ∨ i.Touches q) :=
  ⟨_, _, Checked.searchIntersecting_eq h q, Checked.searchTouching_eq h q, rfl, rfl,
    exact_intersecting h q, exact_touching h q⟩

/-- Entries on both sides of the surrogate block, and the character right after it, which
meets none of them and touches two. -/
theorem searches_exact_afterGap :
    let key : Interval × Nat → Interval := Prod.fst
    let xs : List (Interval × Nat) :=
      [(⟨'a', 'c', by decide⟩, 1), (⟨'d', '\uD7FF', by decide⟩, 2),
        (⟨'\uE001', '\uE001', by decide⟩, 3)]
    let q : Interval := .singleton '\uE000'
    Ascending (xs.map key) ∧
      Checked.searchIntersecting key xs q = pure ⟨2, 2⟩ ∧
      Checked.searchTouching key xs q = pure ⟨1, 3⟩ ∧
      (∀ k ≤ 3, Ascending ((xs.map key).insertIdx k q) ↔ k = 2) := by
  intro key xs q
  have h : Ascending (xs.map key) := by decide
  obtain ⟨meeting, near, hmeeting, hnear, rfl, rfl, hexact, -⟩ := searches_exact key h q
  have hplace : intersecting (xs.map key) q = ⟨2, 2⟩ := by decide
  have hneighbours : touching (xs.map key) q = ⟨1, 3⟩ := by decide
  rw [hplace] at hmeeting hexact
  rw [hneighbours] at hnear
  exact ⟨h, hmeeting, hnear, hexact.place rfl⟩

end Interval

end PatternAutomata
