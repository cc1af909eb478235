import PatternAutomata.Checked.Intervals
import PatternAutomata.Proofs.IntervalSets

/-!
# Searches and insertions that look nothing up in vain

If the entries that pass a test stand before those that fail it, the halves that a search
drops hold no answer, and it ends between the two parts of the list. In a list of ascending
keys both tests of a search for an interval are of this kind: the first one passes what ends
below the interval, the second one, on the rest of the list, what begins no later than the
interval ends.

The ranges that an insertion works on are ranges of the list, their neighbours are
looked up only if they are there, and the ends of the entries that it joins are in
order. So the sets and maps come out as computed without checks.

## Main results

* `bisect_eq`: the search by halving ends where the search one by one ends.
* `searchIntersecting_eq`, `searchTouching_eq`: searches for an interval.
* `insertSet_eq`, `ofIntervals_eq`, `invert_eq`: sets.
* `insertMap_eq`: maps.
-/

namespace PatternAutomata

open PatternAutomata.Interval

namespace Interval

variable {i x : Interval} {mid : List Interval} {n : Nat}

theorem bottom_foldl_hull (h : ∀ y ∈ mid, i.bottom ≤ y.bottom) :
    (mid.foldl hull i).bottom = i.bottom := by
  induction mid generalizing i with
  | nil => rfl
  | cons y mid ih =>
    have hy : (i.hull y).bottom = i.bottom := by
      have := h y (by simp)
      rw [bottom_hull]
      omega
    rw [List.foldl_cons, ih fun z hz => hy ▸ h z (List.mem_cons_of_mem y hz), hy]

theorem top_foldl_hull (h : ∀ y ∈ mid, y.top ≤ n) :
    i.top ≤ (mid.foldl hull i).top ∧ (mid.foldl hull i).top ≤ max i.top n := by
  induction mid generalizing i with
  | nil => exact ⟨Nat.le_refl _, Nat.le_max_left _ _⟩
  | cons y mid ih =>
    have hy := h y (by simp)
    obtain ⟨hlow, hhigh⟩ := ih (i := i.hull y) fun z hz => h z (List.mem_cons_of_mem y hz)
    rw [List.foldl_cons]
    rw [top_hull] at hlow hhigh
    omega

theorem lo_foldl_hull (h : Ascending (x :: mid)) :
    ((x :: mid).foldl hull i).lo = lesser x.lo i.lo := by
  have hx := x.bottom_le_top
  have hlow : ∀ y ∈ mid, (i.hull x).bottom ≤ y.bottom := by
    intro y hy
    have hxy := before_iff.1 ((List.pairwise_cons.1 h).1 y hy)
    rw [bottom_hull]
    omega
  have hbottom := bottom_foldl_hull hlow
  rw [List.foldl_cons, Scalar.eq_iff]
  refine (hbottom.trans (bottom_hull i x)).trans ?_
  simp only [bottom, lesser, Scalar.le_iff]
  split <;> omega

theorem hi_foldl_hull (h : Ascending (mid ++ [x])) :
    ((mid ++ [x]).foldl hull i).hi = greater x.hi i.hi := by
  have hx := x.bottom_le_top
  have hhigh : ∀ y ∈ mid, y.top ≤ x.top := by
    intro y hy
    have hyx := before_iff.1 ((List.pairwise_append.1 h).2.2 y hy x (by simp))
    omega
  obtain ⟨hi, hle⟩ := top_foldl_hull (i := i) hhigh
  have htop : ((mid ++ [x]).foldl hull i).top = max i.top x.top := by
    rw [List.foldl_append, List.foldl_cons, List.foldl_nil, top_hull]
    omega
  rw [Scalar.eq_iff]
  refine htop.trans ?_
  simp only [top, greater, Scalar.le_iff]
  split <;> omega

theorem intersecting_le (xs : List Interval) (q : Interval) :
    (intersecting xs q).start ≤ (intersecting xs q).stop ∧
      (intersecting xs q).stop ≤ xs.length := by
  have h1 := (List.takeWhile_sublist (fun x => decide (x.hi < q.lo)) (l := xs)).length_le
  have h2 := (List.takeWhile_sublist (fun x => decide (x.lo ≤ q.hi))
    (l := xs.drop (partitionPoint (fun x => decide (x.hi < q.lo)) xs))).length_le
  simp only [intersecting, partitionPoint, List.length_drop] at *
  omega

end Interval

namespace Checked

/-! ## Halving -/

section Search

variable {α : Type} {test : α → Bool} {xs pre post : List α} {lo hi : Nat}

/-- A look at the entry in the middle decides in which half the search goes on. -/
theorem bisectFrom_step {x : α} (hlt : lo < hi) (hget : xs[lo + (hi - lo) / 2]? = some x) :
    bisectFrom test xs lo hi =
      if test x = true then bisectFrom test xs (lo + (hi - lo) / 2 + 1) hi
      else bisectFrom test xs lo (lo + (hi - lo) / 2) := by
  rw [bisectFrom, if_pos hlt]
  simp only [entry_eq hget, pure_bind]

/-- The search keeps the first entry that fails between its bounds. -/
theorem bisectFrom_split (hpre : ∀ x ∈ pre, test x = true) (hpost : ∀ x ∈ post, test x = false)
    (hlo : lo ≤ pre.length) (hhi : pre.length ≤ hi) (hlen : hi ≤ (pre ++ post).length) :
    bisectFrom test (pre ++ post) lo hi = pure pre.length := by
  induction lo, hi using bisectFrom.induct with
  | case1 lo hi hlt mid hright hleft =>
      have hmid : mid = lo + (hi - lo) / 2 := rfl
      by_cases hside : mid < pre.length
      · have hget : (pre ++ post)[mid]? = some pre[mid] := by
          rw [List.getElem?_append_left hside, List.getElem?_eq_getElem hside]
        rw [bisectFrom_step hlt hget, if_pos (hpre _ (List.getElem_mem hside))]
        exact hright (by omega) hhi hlen
      · have hback : mid - pre.length < post.length := by
          rw [List.length_append] at hlen
          omega
        have hget : (pre ++ post)[mid]? = some post[mid - pre.length] := by
          rw [List.getElem?_append_right (by omega), List.getElem?_eq_getElem hback]
        rw [bisectFrom_step hlt hget, hpost _ (List.getElem_mem hback),
          if_neg Bool.false_ne_true]
        exact hleft hlo (by omega) (by omega)
  | case2 lo hi hlt => rw [bisectFrom, if_neg hlt, show lo = pre.length by omega]

/-- Where what passes comes before what fails, the search by halving ends where the search
one by one ends. -/
theorem bisect_eq (h : xs.Pairwise fun x y => test y = true → test x = true) :
    bisect test xs = pure (partitionPoint test xs) := by
  obtain ⟨pre, post, rfl, hpoint, hpre, hpost⟩ := partitionPoint_split test h
  rw [bisect, hpoint]
  exact bisectFrom_split hpre hpost (Nat.zero_le _) (by simp) (Nat.le_refl _)

/-! ## Searches for an interval -/

variable {key : α → Interval}

theorem partitionPoint_map {β : Type} (test : β → Bool) (f : α → β) (xs : List α) :
    partitionPoint test (xs.map f) = partitionPoint (fun x => test (f x)) xs := by
  rw [partitionPoint, List.takeWhile_map, List.length_map]
  rfl

theorem partitionPoint_congr {test' : α → Bool} (h : ∀ x ∈ xs, test x = test' x) :
    partitionPoint test xs = partitionPoint test' xs := by
  induction xs with
  | nil => rfl
  | cons x xs ih =>
      have hrest := ih fun y hy => h y (List.mem_cons_of_mem x hy)
      rw [partitionPoint, partitionPoint] at hrest ⊢
      rw [List.takeWhile_cons, List.takeWhile_cons, h x (List.mem_cons_self ..)]
      split
      · rw [List.length_cons, List.length_cons, hrest]
      · rfl

theorem searchIntersecting_eq (h : Ascending (xs.map key)) (q : Interval) :
    searchIntersecting key xs q = pure (intersecting (xs.map key) q) := by
  have hlow := bisect_eq (List.pairwise_map.1 (h.pairwise_below q))
  have hlen := List.takeWhile_sublist (fun x => decide ((key x).hi < q.lo)) (l := xs)
  have hrest : Ascending ((xs.map key).drop
      (partitionPoint (fun x => decide ((key x).hi < q.lo)) xs)) :=
    h.sublist (List.drop_sublist _ _)
  rw [← List.map_drop] at hrest
  have hhigh := bisect_eq (List.pairwise_map.1 (hrest.pairwise_reached q))
  have hwithin : within ⟨partitionPoint (fun x => decide ((key x).hi < q.lo)) xs, xs.length⟩
      xs = pure () := if_pos ⟨hlen.length_le, Nat.le_refl _⟩
  rw [searchIntersecting, hlow, pure_bind, hwithin, pure_bind, hhigh, pure_bind, intersecting,
    partitionPoint_map, ← List.map_drop, partitionPoint_map]

theorem reachDown_eq {k : Nat} (hk : k ≤ xs.length) (q : Interval) :
    reachDown key xs q k =
      pure (if k ≠ 0 ∧ touchesAt (xs.map key) q (k - 1) then k - 1 else k) := by
  by_cases hzero : k = 0
  · simp [reachDown, hzero]
  · obtain ⟨x, hget⟩ : ∃ x, xs[k - 1]? = some x := ⟨_, List.getElem?_eq_getElem (by omega)⟩
    simp [reachDown, hzero, entry_eq hget, touchesAt, hget]

theorem reachUp_eq {k : Nat} (hk : k ≤ xs.length) (q : Interval) :
    reachUp key xs q k = pure (if touchesAt (xs.map key) q k then k + 1 else k) := by
  by_cases hlast : k = xs.length
  · simp [reachUp, hlast, touchesAt]
  · obtain ⟨x, hget⟩ : ∃ x, xs[k]? = some x := ⟨_, List.getElem?_eq_getElem (by omega)⟩
    simp [reachUp, hlast, entry_eq hget, touchesAt, hget]

theorem searchTouching_eq (h : Ascending (xs.map key)) (q : Interval) :
    searchTouching key xs q = pure (touching (xs.map key) q) := by
  obtain ⟨hstart, hstop⟩ := intersecting_le (xs.map key) q
  rw [List.length_map] at hstop
  rw [searchTouching, searchIntersecting_eq h, pure_bind,
    reachDown_eq (Nat.le_trans hstart hstop), reachUp_eq hstop]
  rfl

end Search

/-! ## Insertions -/

variable {s : IntervalSet} {i : Interval}

/-- The hull of ascending entries reaches from the first one to the last one, unless the
interval that they are joined to reaches further. -/
theorem ofBounds_foldl_hull {mid lead rest : List Interval} {first last : Interval}
    (h : Ascending mid) (hfirst : mid = first :: rest) (hlast : mid = lead ++ [last]) :
    ofBounds (lesser first.lo i.lo) (greater last.hi i.hi) = pure (mid.foldl hull i) := by
  refine ofBounds_eq ?_ ?_
  · rw [hfirst] at h ⊢
    exact lo_foldl_hull h
  · rw [hlast] at h ⊢
    exact hi_foldl_hull h

theorem insertSet_eq (h : s.Canonical) (i : Interval) : insertSet s i = pure (s.insert i) := by
  obtain ⟨pre, mid, post, hsplit, htouching, -, -, -⟩ := touching_split h.ascending i
  have hinsert : s.insert i = ⟨pre ++ [mid.foldl hull i] ++ post⟩ := by
    rw [IntervalSet.insert, htouching, hsplit, IndexRange.slice_split, IndexRange.splice_split]
  have hmid : Ascending mid := by
    have hs := h.ascending
    rw [hsplit] at hs
    exact (List.pairwise_append.1 (List.pairwise_append.1 hs).1).2.1
  have hsearch : searchTouching id s.intervals i = pure (touching (s.intervals.map id) i) :=
    searchTouching_eq (by rw [List.map_id]; exact h.ascending) i
  rw [List.map_id, htouching] at hsearch
  rw [insertSet, hsearch, pure_bind, hinsert, hsplit]
  rcases List.eq_nil_or_concat mid with rfl | ⟨lead, last, hlast⟩
  · have hwithin : within ⟨pre.length, pre.length⟩ (pre ++ [] ++ post) = pure () :=
      if_pos ⟨Nat.le_refl _, by simp⟩
    rw [if_pos (by simp), hwithin, pure_bind]
    exact congrArg (fun is => pure (⟨is⟩ : IntervalSet)) (IndexRange.splice_split pre [] post [i])
  · obtain ⟨first, rest, hfirst⟩ := List.exists_cons_of_ne_nil
      (show mid ≠ [] by rw [hlast]; simp)
    have hlow : entry (pre ++ mid ++ post) pre.length = pure first :=
      entry_eq (by simp [hfirst])
    have hhigh : entry (pre ++ mid ++ post) (pre.length + mid.length - 1) = pure last :=
      entry_eq (by simp [hlast])
    have hjoined := ofBounds_foldl_hull (i := i) hmid hfirst
      (hlast.trans (List.concat_eq_append ..))
    have hwithin : within ⟨pre.length, pre.length + mid.length⟩ (pre ++ mid ++ post) =
        pure () := if_pos ⟨by simp, by simp⟩
    rw [if_neg (by simp [hfirst])]
    simp only [hlow, hhigh, hjoined, hwithin, pure_bind, IndexRange.splice_split]

theorem foldlM_insertSet_eq (is : List Interval) (h : s.Canonical) :
    is.foldlM insertSet s = pure (is.foldl IntervalSet.insert s) := by
  induction is generalizing s with
  | nil => rfl
  | cons i is ih =>
    rw [List.foldlM_cons, insertSet_eq h, pure_bind, ih (IntervalSet.canonical_insert h i)]
    rfl

@[simp] theorem ofIntervals_eq (is : List Interval) :
    ofIntervals is = pure (IntervalSet.ofIntervals is) :=
  foldlM_insertSet_eq is IntervalSet.canonical_empty

@[simp] theorem gaps_eq (start : Option Char) (is : List Interval) :
    gaps start is = pure (IntervalSet.gaps start is) := by
  induction is generalizing start with
  | nil => exact mapM_eq fun c _ => ofBounds_eq rfl rfl
  | cons i is ih =>
    have hrest : ∀ c, ofBounds? c Scalar.greatest = some (IntervalSet.upFrom c) :=
      fun c => ofBounds?_eq_some_iff.2 ⟨rfl, rfl⟩
    simp only [gaps, hrest, ih, pure_bind]
    cases start <;> rfl

@[simp] theorem invert_eq (s : IntervalSet) : invert s = pure s.invert := by
  rw [invert, gaps_eq]
  rfl

theorem insertMap_eq {α : Type} (unify : α → α → α) {map : IntervalMap α} (h : map.Ordered)
    (key : Interval) (value : α) :
    insertMap unify map key value = pure (map.insert unify key value) := by
  have hwithin : within (intersecting (map.entries.map (·.1)) key) map.entries = pure () :=
    if_pos (by simpa using intersecting_le (map.entries.map (·.1)) key)
  rw [insertMap, searchIntersecting_eq h, pure_bind, hwithin, pure_bind]
  rfl

end Checked

end PatternAutomata
