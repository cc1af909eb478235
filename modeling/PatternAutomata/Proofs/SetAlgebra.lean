import PatternAutomata.Proofs.IntervalSets

/-!
# The algebra of sets of characters

The gaps between the intervals of a set hold the characters that the set does not, and
have at least one interval between them, so they form a set again. Union is insertion
many times over, and the other operations are composed of these two.

## Main results

* `mem_invert`, `mem_union`, `mem_inter`, `mem_diff`: the operations on members.
* `canonical_invert`, `canonical_union`, `canonical_inter`, `canonical_diff`: the results
  are in the one form that their members have.
-/

namespace PatternAutomata.IntervalSet

open PatternAutomata.Interval

variable {s t : IntervalSet} {is : List Interval} {start : Option Char} {b c : Char}
  {i g : Interval}

/-! ## The gaps between intervals -/

theorem gaps_cons (b : Char) (i : Interval) (is : List Interval) :
    gaps (some b) (i :: is) =
      ((upFrom b).below? i.lo).toList ++ gaps (Scalar.next? i.hi) is := rfl

/-- What comes before an interval is in none of the later ones. -/
theorem not_mem_of_lt (h : Ascending (i :: is)) (hc : c < i.lo) : ∀ j ∈ i :: is, c ∉ j := by
  intro j hj hcj
  have hlow : c.ordinal.val < i.bottom := Scalar.lt_iff.1 hc
  have hmem := mem_iff.1 hcj
  rcases List.mem_cons.1 hj with rfl | hj
  · omega
  · have hbefore := before_iff.1 ((List.pairwise_cons.1 h).1 j hj)
    have hle := i.bottom_le_top
    omega

/-- From their beginning on, the gaps hold the characters that the intervals do not. -/
theorem exists_mem_gaps_iff (h : Ascending is) (hstart : ∀ i ∈ is, From start i.lo) :
    (∃ g ∈ gaps start is, c ∈ g) ↔ From start c ∧ ∀ i ∈ is, c ∉ i := by
  induction is generalizing start with
  | nil =>
      cases start with
      | none => simp [gaps, From]
      | some b => simp [gaps]
  | cons i is ih =>
      obtain ⟨b, rfl, hb⟩ := hstart i (List.mem_cons_self ..)
      obtain ⟨hbefore, his⟩ := List.pairwise_cons.1 h
      have hlater := ih his fun j hj => from_next? (hbefore j hj)
      have hbelow : (∃ g ∈ ((upFrom b).below? i.lo).toList, c ∈ g) ↔ b ≤ c ∧ c < i.lo := by
        rw [← mem_upFrom, ← mem_below?]
        simp
      rw [gaps_cons]
      simp only [List.mem_append, or_and_right, exists_or, hbelow, hlater, from_some]
      constructor
      · rintro (⟨hbc, hlow⟩ | ⟨hfrom, hnot⟩)
        · exact ⟨hbc, not_mem_of_lt h hlow⟩
        · have hhigh := Scalar.lt_iff.1 (lt_of_from_next? hfrom)
          have hle := i.bottom_le_top
          rw [bottom, top] at hle
          rw [Scalar.le_iff] at hb ⊢
          refine ⟨by omega, ?_⟩
          intro j hj
          rcases List.mem_cons.1 hj with rfl | hj
          · rw [mem_iff, bottom, top]
            omega
          · exact hnot j hj
      · rintro ⟨hbc, hnot⟩
        have hout := hnot i (List.mem_cons_self ..)
        by_cases hlow : c < i.lo
        · exact Or.inl ⟨hbc, hlow⟩
        · have hhigh : i.hi < c := by
            rw [mem_iff, bottom, top] at hout
            rw [Scalar.lt_iff] at hlow ⊢
            omega
          exact Or.inr ⟨from_next? hhigh, fun j hj => hnot j (List.mem_cons_of_mem i hj)⟩

theorem from_of_mem_gaps (h : Ascending is) (hstart : ∀ i ∈ is, From start i.lo)
    (hg : g ∈ gaps start is) : From start g.lo :=
  ((exists_mem_gaps_iff h hstart).1 ⟨g, hg, g.lo_mem⟩).1

/-- Two gaps have an interval between them. -/
theorem clear_gaps (h : Ascending is) (hstart : ∀ i ∈ is, From start i.lo) :
    (gaps start is).Pairwise Clear := by
  induction is generalizing start with
  | nil =>
      cases start with
      | none => exact List.Pairwise.nil
      | some b => exact List.pairwise_singleton _ _
  | cons i is ih =>
      obtain ⟨b, rfl, -⟩ := hstart i (List.mem_cons_self ..)
      obtain ⟨hbefore, his⟩ := List.pairwise_cons.1 h
      have hnext : ∀ j ∈ is, From (Scalar.next? i.hi) j.lo := fun j hj => from_next? (hbefore j hj)
      rw [gaps_cons, List.pairwise_append]
      refine ⟨?_, ih his hnext, ?_⟩
      · cases (upFrom b).below? i.lo with
        | none => exact List.Pairwise.nil
        | some k => exact List.pairwise_singleton _ _
      · intro g hg k hk
        have hbelow : g.top < i.bottom := (of_mem_below? (Option.mem_toList.1 hg)).2.2
        have habove : i.top < k.bottom :=
          Scalar.lt_iff.1 (lt_of_from_next? (from_of_mem_gaps his hnext hk))
        have hle := i.bottom_le_top
        rw [Clear]
        omega

/-! ## Operations on sets -/

theorem mem_invert (h : s.Canonical) : c ∈ s.invert ↔ c ∉ s := by
  rw [mem_def, mem_def, invert,
    exists_mem_gaps_iff h.ascending fun i _ => from_least i.lo]
  simp

theorem canonical_invert (h : s.Canonical) : s.invert.Canonical := by
  rw [Canonical, apart_iff]
  exact clear_gaps h.ascending fun i _ => from_least i.lo

theorem mem_union (h : s.Canonical) : c ∈ s.union t ↔ c ∈ s ∨ c ∈ t :=
  (foldl_insert_spec t.intervals h).2 c

theorem canonical_union (h : s.Canonical) : (s.union t).Canonical :=
  (foldl_insert_spec t.intervals h).1

theorem mem_inter (hs : s.Canonical) (ht : t.Canonical) : c ∈ s.inter t ↔ c ∈ s ∧ c ∈ t := by
  have hunion := canonical_union (t := t.invert) (canonical_invert hs)
  rw [inter, mem_invert hunion, mem_union (canonical_invert hs), mem_invert hs, mem_invert ht]
  simp [not_or]

theorem canonical_inter (hs : s.Canonical) : (s.inter t).Canonical :=
  canonical_invert (canonical_union (canonical_invert hs))

theorem mem_diff (hs : s.Canonical) (ht : t.Canonical) : c ∈ s.diff t ↔ c ∈ s ∧ c ∉ t := by
  rw [diff, mem_inter hs (canonical_invert ht), mem_invert ht]

theorem canonical_diff (hs : s.Canonical) : (s.diff t).Canonical := canonical_inter hs

/-- A set is part of another if nothing is left of it without the other. -/
theorem isEmpty_diff_iff (hs : s.Canonical) (ht : t.Canonical) :
    (s.diff t).isEmpty = true ↔ ∀ c ∈ s, c ∈ t := by
  simp only [isEmpty_iff, mem_diff hs ht, not_and, Classical.not_not]

end PatternAutomata.IntervalSet
