import PatternAutomata.Proofs.IntervalOrder

/-!
# Searches and insertions in sorted lists of intervals

A search divides a sorted list in three: what lies before the interval, what it
meets (or is next to), and what lies after it. `intersecting_split` and
`touching_split` state that as an equation on the list, and both insertions are
read off from there: the outer parts stay, the middle part is replaced.

## Main results

* `IntervalSet.canonical_insert`, `IntervalSet.mem_insert`: an insertion adds the
  characters of the interval and keeps the intervals apart.
* `IntervalSet.canonical_ofIntervals`, `IntervalSet.mem_ofIntervals`: the same
  for any number of insertions.
-/

namespace PatternAutomata

namespace Interval

/-- The intervals share a character or touch. -/
def Near (i j : Interval) : Prop := i.bottom ≤ j.top + 1 ∧ j.bottom ≤ i.top + 1

/-- The first interval ends before the second begins, with a character between. -/
def Clear (i j : Interval) : Prop := i.top + 1 < j.bottom

theorem near_iff {i j : Interval} : i.Near j ↔ i.Meets j ∨ i.Touches j := by
  have hi := i.bottom_le_top
  have hj := j.bottom_le_top
  rw [Near, meets_iff, touches_iff]
  omega

theorem clear_iff {i j : Interval} : i.Clear j ↔ i.Before j ∧ ¬ i.Touches j := by
  have hi := i.bottom_le_top
  have hj := j.bottom_le_top
  rw [Clear, before_iff, touches_iff]
  omega

theorem apart_iff {is : List Interval} : Apart is ↔ is.Pairwise Clear := by
  have h : (fun i j : Interval => i.Before j ∧ ¬ i.Touches j) = Clear := by
    funext i j
    exact propext clear_iff.symm
  rw [Apart, h]

theorem Apart.ascending {is : List Interval} (h : Apart is) : Ascending is :=
  List.Pairwise.imp (fun h => h.1) h

/-! ## Searching -/

/-- What a beginning of a list passes and nothing after it does. -/
theorem partitionPoint_split {α : Type u} (test : α → Bool) {xs : List α}
    (h : xs.Pairwise fun x y => test y = true → test x = true) :
    ∃ pre post, xs = pre ++ post ∧ partitionPoint test xs = pre.length ∧
      (∀ x ∈ pre, test x = true) ∧ ∀ x ∈ post, test x = false := by
  induction xs with
  | nil => exact ⟨[], [], rfl, rfl, by simp, by simp⟩
  | cons x xs ih =>
      rw [List.pairwise_cons] at h
      by_cases hx : test x = true
      · obtain ⟨pre, post, hxs, hlen, hpre, hpost⟩ := ih h.2
        refine ⟨x :: pre, post, by rw [hxs]; rfl, ?_, ?_, hpost⟩
        · simpa [partitionPoint, hx] using hlen
        · simpa [hx] using hpre
      · refine ⟨[], x :: xs, rfl, by simp [partitionPoint, hx], by simp, ?_⟩
        intro y hy
        rcases List.mem_cons.1 hy with rfl | hmem
        · simpa using hx
        · have := mt (h.1 y hmem) hx
          simpa using this

/-- In an ascending list the intervals below another one come first. -/
theorem Ascending.pairwise_below {xs : List Interval} (h : Ascending xs) (q : Interval) :
    xs.Pairwise fun x y => decide (y.hi < q.lo) = true → decide (x.hi < q.lo) = true := by
  refine List.Pairwise.imp (fun {x y} hxy hy => ?_) h
  have hle := y.bottom_le_top
  rw [before_iff] at hxy
  simp only [decide_eq_true_eq, hi_lt_lo_iff] at hy ⊢
  omega

/-- In an ascending list the intervals above another one come last. -/
theorem Ascending.pairwise_reached {xs : List Interval} (h : Ascending xs) (q : Interval) :
    xs.Pairwise fun x y => decide (y.lo ≤ q.hi) = true → decide (x.lo ≤ q.hi) = true := by
  refine List.Pairwise.imp (fun {x y} hxy hy => ?_) h
  have hle := x.bottom_le_top
  rw [before_iff] at hxy
  simp only [decide_eq_true_eq, lo_le_hi_iff] at hy ⊢
  omega

/-- The intervals that meet another one stand between those before and after. -/
theorem intersecting_split {xs : List Interval} (h : Ascending xs) (q : Interval) :
    ∃ pre mid post, xs = pre ++ mid ++ post ∧
      intersecting xs q = ⟨pre.length, pre.length + mid.length⟩ ∧
      (∀ x ∈ pre, x.Before q) ∧ (∀ x ∈ mid, x.Meets q) ∧ ∀ x ∈ post, q.Before x := by
  obtain ⟨pre, rest, hxs, hstart, hpre, hrest⟩ := partitionPoint_split _ (h.pairwise_below q)
  have hrestAsc : Ascending rest := by
    rw [hxs, Ascending, List.pairwise_append] at h
    exact h.2.1
  obtain ⟨mid, post, hrestEq, hstop, hmid, hpost⟩ :=
    partitionPoint_split _ (hrestAsc.pairwise_reached q)
  refine ⟨pre, mid, post, by rw [hxs, hrestEq, List.append_assoc], ?_, ?_, ?_, ?_⟩
  · have hdrop : xs.drop pre.length = rest := by rw [hxs, List.drop_left]
    simp only [intersecting, hstart, hdrop, hstop]
  · intro x hx
    simpa [Before] using hpre x hx
  · intro x hx
    have h1 := hrest x (by rw [hrestEq]; exact List.mem_append_left _ hx)
    have h2 := hmid x hx
    simp only [decide_eq_true_eq, decide_eq_false_iff_not, hi_lt_lo_iff, lo_le_hi_iff]
      at h1 h2
    rw [meets_iff]
    omega
  · intro x hx
    have h1 := hpost x hx
    simp only [decide_eq_false_iff_not, lo_le_hi_iff] at h1
    rw [before_iff]
    omega

@[simp] theorem touchesAt_append_cons (pre post : List Interval) (x q : Interval) :
    touchesAt (pre ++ x :: post) q pre.length = decide (x.Touches q) := by
  simp [touchesAt]

@[simp] theorem touchesAt_length {xs : List Interval} {q : Interval} :
    touchesAt xs q xs.length = false := by
  simp [touchesAt]

/-- The neighbour below joins the range exactly if it touches. -/
private theorem touching_start (rest : List Interval) {pre : List Interval} {q : Interval}
    (h : Ascending pre) (hpre : ∀ x ∈ pre, x.Before q) :
    ∃ far near, pre = far ++ near ∧
      (if pre.length ≠ 0 ∧ touchesAt (pre ++ rest) q (pre.length - 1) then pre.length - 1
        else pre.length) = far.length ∧
      (∀ x ∈ far, x.Clear q) ∧ ∀ x ∈ near, x.Near q := by
  rcases List.eq_nil_or_concat pre with rfl | ⟨far, x, rfl⟩
  · exact ⟨[], [], rfl, by simp, by simp, by simp⟩
  · have hx := before_iff.1 (hpre x (by simp))
    have hfar : ∀ y ∈ far, y.Clear q := by
      intro y hy
      rw [List.concat_eq_append, Ascending, List.pairwise_append] at h
      have hyx := before_iff.1 (h.2.2 y hy x (by simp))
      have hle := x.bottom_le_top
      rw [Clear]
      omega
    have hat : touchesAt (far.concat x ++ rest) q (far.concat x).length.pred =
        decide (x.Touches q) := by
      rw [List.concat_eq_append, List.append_assoc]
      simp
    have hlen : (far.concat x).length = far.length + 1 := by simp
    rw [hlen, Nat.pred_succ] at hat
    by_cases ht : x.Touches q
    · refine ⟨far, [x], by simp, ?_, hfar, ?_⟩
      · rw [hlen, Nat.add_sub_cancel, hat]
        simp [ht]
      · intro y hy
        rw [List.mem_singleton] at hy
        rw [hy, near_iff]
        exact Or.inr ht
    · refine ⟨far.concat x, [], by simp, ?_, ?_, by simp⟩
      · rw [hlen, Nat.add_sub_cancel, hat]
        simp [ht]
      · intro y hy
        rw [List.concat_eq_append, List.mem_append, List.mem_singleton] at hy
        rcases hy with hy | rfl
        · exact hfar y hy
        · exact clear_iff.2 ⟨before_iff.2 hx, ht⟩

/-- The neighbour above joins the range exactly if it touches. -/
private theorem touching_stop (lead : List Interval) {post : List Interval} {q : Interval}
    (h : Ascending post) (hpost : ∀ x ∈ post, q.Before x) :
    ∃ near far, post = near ++ far ∧
      (if touchesAt (lead ++ post) q lead.length then lead.length + 1 else lead.length) =
        lead.length + near.length ∧
      (∀ x ∈ near, x.Near q) ∧ ∀ x ∈ far, q.Clear x := by
  cases post with
  | nil =>
      refine ⟨[], [], rfl, ?_, by simp, by simp⟩
      rw [List.append_nil, touchesAt_length]
      simp
  | cons x post =>
      have hx := before_iff.1 (hpost x (by simp))
      have hxle := x.bottom_le_top
      have hfar : ∀ y ∈ post, q.Clear y := by
        intro y hy
        have hxy := before_iff.1 ((List.pairwise_cons.1 h).1 y hy)
        rw [Clear]
        omega
      rw [touchesAt_append_cons]
      by_cases ht : x.Touches q
      · refine ⟨[x], post, rfl, by simp [ht], ?_, hfar⟩
        intro y hy
        rw [List.mem_singleton] at hy
        rw [hy, near_iff]
        exact Or.inr ht
      · refine ⟨[], x :: post, rfl, by simp [ht], by simp, ?_⟩
        intro y hy
        rcases List.mem_cons.1 hy with rfl | hy
        · rw [touches_iff] at ht
          rw [Clear]
          omega
        · exact hfar y hy

/-- The intervals that meet or touch another one stand between those that are clear
of it. -/
theorem touching_split {xs : List Interval} (h : Ascending xs) (q : Interval) :
    ∃ pre mid post, xs = pre ++ mid ++ post ∧
      touching xs q = ⟨pre.length, pre.length + mid.length⟩ ∧
      (∀ x ∈ pre, x.Clear q) ∧ (∀ x ∈ mid, x.Near q) ∧ ∀ x ∈ post, q.Clear x := by
  obtain ⟨pre, mid, post, rfl, hr, hpre, hmid, hpost⟩ := intersecting_split h q
  have hparts := List.pairwise_append.1 h
  have hfront := List.pairwise_append.1 hparts.1
  obtain ⟨far, near, rfl, hstart, hfar, hnear⟩ :=
    touching_start (mid ++ post) hfront.1 hpre
  obtain ⟨near', far', rfl, hstop, hnear', hfar'⟩ :=
    touching_stop (far ++ near ++ mid) hparts.2.1 hpost
  refine ⟨far, near ++ mid ++ near', far', by simp only [List.append_assoc], ?_, hfar, ?_,
    hfar'⟩
  · rw [← List.append_assoc] at hstart
    have hlen : (far ++ near).length + mid.length = (far ++ near ++ mid).length := by
      simp only [List.length_append]
    simp only [touching, hr, hlen]
    rw [hstart, hstop]
    simp only [List.length_append, IndexRange.mk.injEq, true_and]
    omega
  · intro x hx
    rcases List.mem_append.1 hx with hx | hx
    · rcases List.mem_append.1 hx with hx | hx
      · exact hnear x hx
      · exact near_iff.2 (Or.inl (hmid x hx))
    · exact hnear' x hx

@[simp] theorem IndexRange.slice_split {α : Type u} (pre mid post : List α) :
    (⟨pre.length, pre.length + mid.length⟩ : IndexRange).slice (pre ++ mid ++ post) = mid := by
  simp [slice]

@[simp] theorem IndexRange.splice_split {α : Type u} (pre mid post ys : List α) :
    (⟨pre.length, pre.length + mid.length⟩ : IndexRange).splice ys (pre ++ mid ++ post) =
      pre ++ ys ++ post := by
  have h : pre.length + mid.length = (pre ++ mid).length := by simp
  rw [splice, h, List.drop_left, List.append_assoc pre mid, List.take_left]

/-- An entry that is put at the end of the first part of a list. -/
theorem insertIdx_length_append {α : Type u} (pre post : List α) (x : α) :
    (pre ++ post).insertIdx pre.length x = pre ++ x :: post := by
  induction pre with
  | nil => exact List.insertIdx_zero
  | cons y pre ih =>
      rw [List.cons_append, List.length_cons, List.insertIdx_succ_cons, ih, List.cons_append]

/-! ## Joining neighbours -/

/-- The hull of two intervals near each other has no further characters. -/
theorem mem_hull {i j : Interval} (h : i.Near j) {c : Char} :
    c ∈ i.hull j ↔ c ∈ i ∨ c ∈ j := by
  have hi := i.bottom_le_top
  have hj := j.bottom_le_top
  rw [Near] at h
  rw [mem_iff, mem_iff, mem_iff, bottom_hull, top_hull]
  omega

/-- Joining an interval with others near it adds their characters, and both ends
stay ends of one of them. -/
theorem foldl_hull_spec {mid : List Interval} {i : Interval} (h : ∀ x ∈ mid, x.Near i) :
    (∀ c, c ∈ mid.foldl hull i ↔ c ∈ i ∨ ∃ x ∈ mid, c ∈ x) ∧
      (∃ x ∈ i :: mid, (mid.foldl hull i).bottom = x.bottom) ∧
      ∃ x ∈ i :: mid, (mid.foldl hull i).top = x.top := by
  induction mid generalizing i with
  | nil => simp
  | cons x mid ih =>
      have hx : i.Near x := by
        have := h x (by simp)
        exact ⟨this.2, this.1⟩
      have hrest : ∀ y ∈ mid, y.Near (i.hull x) := by
        intro y hy
        have := h y (by simp [hy])
        rw [Near] at this ⊢
        rw [bottom_hull, top_hull]
        omega
      obtain ⟨hmem, ⟨lower, hlower, hbottom⟩, ⟨upper, hupper, htop⟩⟩ := ih hrest
      refine ⟨?_, ?_, ?_⟩
      · intro c
        rw [List.foldl_cons, hmem, mem_hull hx]
        simp [or_assoc]
      · rw [List.foldl_cons, hbottom]
        rcases List.mem_cons.1 hlower with rfl | hlower
        · rw [bottom_hull]
          rcases Nat.le_total i.bottom x.bottom with hle | hle
          · exact ⟨i, by simp, by omega⟩
          · exact ⟨x, by simp, by omega⟩
        · exact ⟨lower, by simp [hlower], rfl⟩
      · rw [List.foldl_cons, htop]
        rcases List.mem_cons.1 hupper with rfl | hupper
        · rw [top_hull]
          rcases Nat.le_total i.top x.top with hle | hle
          · exact ⟨x, by simp, by omega⟩
          · exact ⟨i, by simp, by omega⟩
        · exact ⟨upper, by simp [hupper], rfl⟩

end Interval

namespace IntervalSet

open PatternAutomata.Interval

theorem canonical_empty : empty.Canonical := List.Pairwise.nil

@[simp] theorem not_mem_empty (c : Char) : c ∉ empty := by
  rintro ⟨i, hi, -⟩
  exact absurd hi (by simp [empty])

/-- What an insertion leaves: the intervals clear of the new one, and between them
the join of the others with it. -/
theorem insert_split {s : IntervalSet} (h : s.Canonical) (i : Interval) :
    ∃ pre mid post, s.intervals = pre ++ mid ++ post ∧
      (s.insert i).intervals = pre ++ [mid.foldl hull i] ++ post ∧
      (∀ x ∈ pre, x.Clear i) ∧ (∀ x ∈ mid, x.Near i) ∧ ∀ x ∈ post, i.Clear x := by
  obtain ⟨pre, mid, post, hs, hr, hpre, hmid, hpost⟩ := touching_split h.ascending i
  refine ⟨pre, mid, post, hs, ?_, hpre, hmid, hpost⟩
  rw [insert, hr, hs, IndexRange.slice_split, IndexRange.splice_split]

/-- An insertion adds the characters of the interval. -/
theorem mem_insert {s : IntervalSet} (h : s.Canonical) {i : Interval} {c : Char} :
    c ∈ s.insert i ↔ c ∈ i ∨ c ∈ s := by
  obtain ⟨pre, mid, post, hs, hins, -, hmid, -⟩ := insert_split h i
  rw [mem_def, mem_def, hs, hins]
  have hjoin := (foldl_hull_spec hmid).1 c
  simp only [List.mem_append, List.mem_singleton, or_and_right, exists_or, exists_eq_left,
    hjoin]
  grind

/-- An insertion keeps the intervals apart. -/
theorem canonical_insert {s : IntervalSet} (h : s.Canonical) (i : Interval) :
    (s.insert i).Canonical := by
  obtain ⟨pre, mid, post, hs, hins, hpre, hmid, hpost⟩ := insert_split h i
  obtain ⟨-, ⟨lower, hlower, hbottom⟩, ⟨upper, hupper, htop⟩⟩ := foldl_hull_spec hmid
  have hold : (pre ++ mid ++ post).Pairwise Clear := by
    rw [← hs]
    exact apart_iff.1 h
  obtain ⟨hfront, hpostApart, hacross⟩ := List.pairwise_append.1 hold
  obtain ⟨hpreApart, -, hpreMid⟩ := List.pairwise_append.1 hfront
  have hbelow : ∀ x ∈ pre, x.Clear (mid.foldl hull i) := by
    intro x hx
    rw [Clear, hbottom]
    rcases List.mem_cons.1 hlower with rfl | hlower
    · exact hpre x hx
    · exact hpreMid x hx lower hlower
  have habove : ∀ x ∈ post, (mid.foldl hull i).Clear x := by
    intro x hx
    rw [Clear, htop]
    rcases List.mem_cons.1 hupper with rfl | hupper
    · exact hpost x hx
    · exact hacross upper (List.mem_append_right _ hupper) x hx
  rw [Canonical, apart_iff, hins, List.append_assoc, List.pairwise_append]
  refine ⟨hpreApart, List.pairwise_cons.2 ⟨habove, hpostApart⟩, ?_⟩
  intro x hx y hy
  rcases List.mem_cons.1 hy with rfl | hy
  · exact hbelow x hx
  · exact hacross x (List.mem_append_left _ hx) y hy

theorem foldl_insert_spec (is : List Interval) {s : IntervalSet} (h : s.Canonical) :
    (is.foldl insert s).Canonical ∧
      ∀ c, c ∈ is.foldl insert s ↔ c ∈ s ∨ ∃ i ∈ is, c ∈ i := by
  induction is generalizing s with
  | nil => exact ⟨h, by simp⟩
  | cons i is ih =>
      obtain ⟨hcanonical, hmem⟩ := ih (canonical_insert h i)
      refine ⟨hcanonical, fun c => ?_⟩
      rw [List.foldl_cons, hmem, mem_insert h]
      simp only [List.mem_cons, exists_eq_or_imp]
      grind

theorem canonical_ofIntervals (is : List Interval) : (ofIntervals is).Canonical :=
  (foldl_insert_spec is canonical_empty).1

/-- A set of intervals holds their characters. -/
@[simp] theorem mem_ofIntervals {is : List Interval} {c : Char} :
    c ∈ ofIntervals is ↔ ∃ i ∈ is, c ∈ i := by
  rw [ofIntervals, (foldl_insert_spec is canonical_empty).2]
  simp

@[simp] theorem mem_ofChars {cs : List Char} {c : Char} : c ∈ ofChars cs ↔ c ∈ cs := by
  rw [ofChars, mem_ofIntervals]
  constructor
  · rintro ⟨i, hi, hc⟩
    obtain ⟨d, hd, rfl⟩ := List.mem_map.1 hi
    rw [Interval.mem_singleton] at hc
    exact hc ▸ hd
  · intro hc
    exact ⟨.singleton c, List.mem_map.2 ⟨c, hc, rfl⟩, Interval.mem_singleton.2 rfl⟩

@[simp] theorem mem_ofBounds {lo hi c : Char} : c ∈ ofBounds lo hi ↔ lo ≤ c ∧ c ≤ hi := by
  rw [ofBounds, mem_ofIntervals, ← exists_mem_ofBounds?_iff]
  simp

/-- A set without members has no intervals. -/
theorem isEmpty_iff {s : IntervalSet} : s.isEmpty = true ↔ ∀ c, c ∉ s := by
  rw [isEmpty, List.isEmpty_iff]
  constructor
  · rintro h c ⟨i, hi, -⟩
    rw [h] at hi
    simp at hi
  · intro h
    rw [List.eq_nil_iff_forall_not_mem]
    intro i hi
    exact h i.lo ⟨i, hi, i.lo_mem⟩

end IntervalSet

end PatternAutomata
