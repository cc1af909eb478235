import PatternAutomata.Checked.Elementary
import PatternAutomata.Proofs.Canonicity
import PatternAutomata.Proofs.CheckedIntervals
import PatternAutomata.Proofs.Complement
import PatternAutomata.Proofs.Drafts
import PatternAutomata.Proofs.Edits
import PatternAutomata.Proofs.Elementary
import PatternAutomata.Proofs.Product
import PatternAutomata.Proofs.SetAlgebra

/-!
# Elementary automata, complement and intersection come out without a fault

The transitions of an elementary automaton lie apart from each other, and the gaps of
a row meet none of its transitions; so every transition is accepted, and the
automata come out as given by their lists of states.

## Main results

* `ofChars_eq`, `ofRange_eq`, `ofWord_eq`, `anyWord_eq`, `emptyWord_eq`.
* `complement_eq`, `inter_eq`.
-/

namespace PatternAutomata.Checked

open PatternAutomata.Interval

variable {d a b : Dfa} {s : Nat} {set : IntervalSet} {c : Char}

/-! ## Elementary automata -/

@[simp] theorem emptyWord_eq : emptyWord = pure .emptyWord := rfl

/-- The intervals of a set share no character. -/
theorem disjoint_intervals (h : set.Canonical) :
    set.intervals.Pairwise fun i j => ∀ c ∈ i, c ∉ j := by
  refine h.imp fun {i j} hapart c hc => ?_
  exact hapart.1.not_mem_right hc

theorem step?_map_intervals (is : List Interval) (target : Nat) (c : Char) :
    Row.step? (is.map (⟨·, target⟩)) c = if ∃ i ∈ is, c ∈ i then some target else none := by
  induction is with
  | nil => simp
  | cons i is ih =>
    rw [List.map_cons, Row.step?_cons, ih]
    by_cases hc : c ∈ i <;> simp [hc]

theorem ofIntervalList_eq (h : set.Canonical) : ofIntervalList set.intervals =
    pure ⟨0, [⟨false, set.intervals.map (⟨·, 1⟩)⟩, ⟨true, []⟩]⟩ := by
  have hnil : Row.Joined [] := List.Pairwise.nil
  obtain ⟨row, hrow, hjoined, hstep⟩ := foldlM_insertRow hnil (disjoint_intervals h)
    (fun _ _ _ _ => rfl) 1
  have hfinal : row = set.intervals.map (⟨·, 1⟩) :=
    hjoined.eq_of_step?_eq (Dfa.joined_map_intervals h 1) fun c => by
      rw [hstep, step?_map_intervals]
      rfl
  rw [hfinal] at hrow
  have hmark : mark Dfa.empty.addState Dfa.empty.size true =
      pure ⟨0, [.idle, ⟨true, []⟩]⟩ := rfl
  rw [ofIntervalList, hmark, pure_bind]
  exact foldlM_addTransition (d := ⟨0, [.idle, ⟨true, []⟩]⟩) (s := 0) (by decide) hrow

@[simp] theorem ofChars_eq (cs : List Char) : ofChars cs = pure (.ofChars cs) := by
  have hsingle : cs.mapM singleton = pure (cs.map Interval.singleton) := by
    have hone : singleton = fun c => pure (Interval.singleton c) :=
      funext fun c => ofBounds_eq rfl rfl
    rw [hone, List.mapM_pure]
  rw [ofChars, hsingle, pure_bind, ofIntervals_eq, pure_bind, ← IntervalSet.ofChars,
    Dfa.ofChars, Dfa.ofSet]
  by_cases hempty : (IntervalSet.ofChars cs).isEmpty = true
  · rw [if_pos hempty, if_pos hempty]
  · rw [if_neg hempty, if_neg hempty]
    exact ofIntervalList_eq (Dfa.canonical_ofChars cs)

@[simp] theorem ofRange_eq (lo hi : Char) : ofRange lo hi = pure (.ofRange lo hi) := by
  rw [ofRange, Dfa.ofRange, IntervalSet.ofBounds, Dfa.ofSet]
  cases ofBounds? lo hi with
  | none => rfl
  | some i =>
    have hone : IntervalSet.Canonical ⟨[i]⟩ := List.pairwise_singleton _ _
    exact ofIntervalList_eq hone

theorem modify_length {α : Type} (pre post : List α) (x : α) (f : α → α) :
    (pre ++ x :: post).modify pre.length f = pre ++ f x :: post := by
  rw [List.modify_eq_take_drop]
  simp

/-- Reading goes on from the last state that was added. -/
theorem spell_eq (pre : List Dfa.State) (word : List Char) :
    spell ⟨0, pre ++ [.idle]⟩ pre.length word = pure ⟨0, pre ++ Dfa.spell pre.length word⟩ := by
  induction word generalizing pre with
  | nil =>
    rw [spell, mark_eq (by simp [Dfa.size]), Dfa.setAccepting, modify_length]
    rfl
  | cons c word ih =>
    let d : Dfa := ⟨0, pre ++ .idle :: [.idle]⟩
    have hlt : pre.length < d.size := by simp [d, Dfa.size]
    have hidle : d.states[pre.length]? = some .idle := by simp [d]
    have hrow : d.row pre.length = [] := Dfa.row_eq_of_getElem? hidle
    have hinsert : insertRow (d.row pre.length) (.singleton c) (pre.length + 1) =
        pure [⟨.singleton c, pre.length + 1⟩] := by
      rw [hrow]
      exact insertRow_of_insert? List.Pairwise.nil rfl
    have hadd : addTransition d pre.length (.singleton c) (pre.length + 1) =
        pure ⟨0, (pre ++ [⟨false, [⟨.singleton c, pre.length + 1⟩]⟩]) ++ [.idle]⟩ := by
      rw [addTransition_of_insertRow hlt hinsert, Dfa.setRow, modify_length, List.append_cons]
      rfl
    have hstates : Dfa.addState ⟨0, pre ++ [.idle]⟩ = d := by
      rw [Dfa.addState, List.append_assoc]
      rfl
    have hsize : Dfa.size ⟨0, pre ++ [.idle]⟩ = pre.length + 1 := by simp [Dfa.size]
    have hchar : singleton c = pure (.singleton c) := ofBounds_eq rfl rfl
    have hrest := ih (pre ++ [⟨false, [⟨.singleton c, pre.length + 1⟩]⟩])
    rw [List.length_append, List.length_singleton] at hrest
    rw [spell, hchar, pure_bind, hsize, hstates, hadd, pure_bind, hrest, List.append_assoc]
    rfl

@[simp] theorem ofWord_eq (word : List Char) : ofWord word = pure (.ofWord word) := spell_eq [] word

@[simp] theorem anyWord_eq : anyWord = pure .anyWord := by
  have hfull : ofBounds Scalar.least Scalar.greatest = pure .full := ofBounds_eq rfl rfl
  have hmark : mark .empty Dfa.empty.start true = pure .emptyWord := rfl
  have hinsert : insertRow (Dfa.emptyWord.row 0) .full 0 = pure [⟨.full, 0⟩] :=
    insertRow_of_insert? List.Pairwise.nil rfl
  rw [anyWord, hmark, pure_bind, hfull, pure_bind]
  exact addTransition_of_insertRow (by decide) hinsert

/-! ## Complement -/

/-- The entries lie below a character, and those that lead to `dead` do not touch what
begins with it. -/
def Passed (dead : Nat) (b : Char) (pre : Row) : Prop :=
  ∀ u ∈ pre, u.on.top < b.ordinal.val ∧ (u.target = dead → u.on.top + 1 < b.ordinal.val)

/-- A gap is filled without joining anything. -/
theorem insertRow_gap {dead : Nat} {b : Char} {pre post : Row} {k : Interval}
    (hpre : Passed dead b pre) (hk : k.bottom = b.ordinal.val) (hpost : ∀ u ∈ post, k.Before u.on)
    (hdead : ∀ u ∈ post, u.target ≠ dead) :
    insertRow (pre ++ post) k dead = pure (pre ++ ⟨k, dead⟩ :: post) := by
  refine insertRow_apart (fun u hu => ?_) hpost fun u hu hjoin => ?_
  · rw [before_iff, hk]
    exact (hpre u hu).1
  · rcases List.mem_append.1 hu with hu | hu
    · have hlow := (hpre u hu).2 hjoin.1
      have htouch := touches_iff.1 hjoin.2
      have := k.bottom_le_top
      have := u.on.bottom_le_top
      omega
    · exact hdead u hu hjoin.1

/-- Behind an entry with the gap before it, another gap may begin. -/
theorem Passed.append {dead : Nat} {b b' : Char} {pre : Row} {t : Transition}
    (hpre : Passed dead b pre) (hb : b ≤ t.on.lo) (ht : t.target ≠ dead) (hb' : t.on.hi < b') :
    Passed dead b' (pre ++ Row.gap dead b t.on.lo ++ [t]) := by
  have hle := t.on.bottom_le_top
  rw [Scalar.lt_iff] at hb'
  rw [Scalar.le_iff] at hb
  rw [bottom, top] at hle
  intro u hu
  rcases List.mem_append.1 hu with hu | hu
  · rcases List.mem_append.1 hu with hu | hu
    · have hlow := hpre u hu
      omega
    · have hgap := (Row.mem_gap hu).2.2
      omega
  · rw [List.mem_singleton.1 hu]
    exact ⟨hb', fun hdead => absurd hdead ht⟩

/-- The gaps of a row are filled one after the other, whatever stands before them. -/
theorem foldlM_gaps {dead : Nat} {start : Option Char} {row : Row} (pre : Row) (h : row.Ordered)
    (hstart : ∀ t ∈ row, From start t.on.lo) (hdead : ∀ t ∈ row, t.target ≠ dead)
    (hpre : ∀ b ∈ start, Passed dead b pre) :
    (IntervalSet.gaps start (row.map (·.on))).foldlM (fun row i => insertRow row i dead)
      (pre ++ row) = pure (pre ++ row.fill dead start) := by
  induction row generalizing start pre with
  | nil =>
    cases start with
    | none => rfl
    | some b =>
      have hlast : insertRow (pre ++ []) (IntervalSet.upFrom b) dead =
          pure (pre ++ [⟨IntervalSet.upFrom b, dead⟩]) :=
        insertRow_gap (hpre b rfl) rfl (by simp) (by simp)
      exact (List.foldlM_cons ..).trans (by rw [hlast]; rfl)
  | cons t row ih =>
    obtain ⟨b, rfl, hb⟩ := hstart t (by simp)
    obtain ⟨hbefore, hrow⟩ := Row.ordered_cons.1 h
    -- The gap before `t` is filled first; after that it is passed together with `t`.
    have hgap : ((IntervalSet.upFrom b).below? t.on.lo).toList.foldlM
        (fun row i => insertRow row i dead) (pre ++ t :: row) =
          pure ((pre ++ Row.gap dead b t.on.lo) ++ t :: row) := by
      unfold Row.gap
      cases hk : (IntervalSet.upFrom b).below? t.on.lo with
      | none => simp
      | some k =>
        obtain ⟨hbottom, -, htop⟩ := of_mem_below? hk
        have hfill := insertRow_gap (hpre b rfl) hbottom
          (Row.before_of_head (t := ⟨k, dead⟩) h (before_iff.2 htop)) hdead
        simp [hfill]
    rw [List.map_cons, IntervalSet.gaps_cons, List.foldlM_append, hgap, pure_bind,
      List.append_cons, ih _ hrow (fun u hu => from_next? (hbefore u hu))
        (fun u hu => hdead u (List.mem_cons_of_mem t hu)), Row.fill_cons]
    · simp
    · intro b' hb'
      exact (hpre b rfl).append hb (hdead t (by simp))
        (lt_of_from_next? ⟨b', hb', Char.le_refl b'⟩)

/-- The characters missing in a row, found through the set of those that are there, are
the gaps between its intervals. -/
theorem intervals_missing {row : Row} (h : row.Ordered) :
    (IntervalSet.ofIntervals (row.map (·.on))).invert.intervals =
      IntervalSet.gaps (some Scalar.least) (row.map (·.on)) := by
  have hcovered : (IntervalSet.ofIntervals (row.map (·.on))).Canonical :=
    IntervalSet.canonical_ofIntervals _
  have hstart : ∀ i ∈ row.map (·.on), From (some Scalar.least) i.lo := fun i _ => from_least i.lo
  refine congrArg IntervalSet.intervals (IntervalSet.eq_of_mem_iff
    (IntervalSet.canonical_invert hcovered) (t := ⟨_⟩)
    (apart_iff.2 (IntervalSet.clear_gaps h hstart)) fun c => ?_)
  rw [IntervalSet.mem_invert hcovered, IntervalSet.mem_ofIntervals, IntervalSet.mem_def,
    IntervalSet.exists_mem_gaps_iff h hstart]
  simp

theorem fillState_eq {dead : Nat} (hs : s < d.size) (h : (d.row s).Ordered)
    (hdead : ∀ t ∈ d.row s, t.target ≠ dead) :
    fillState dead d s = pure (d.setRow s ((d.row s).fill dead (some Scalar.least))) := by
  have hrow := foldlM_gaps [] h (fun t _ => from_least t.on.lo) hdead
    fun b _ u hu => by cases hu
  rw [fillState, rowAt_eq hs, pure_bind, ofIntervals_eq, pure_bind, invert_eq, pure_bind,
    intervals_missing h, foldlM_addTransition hs hrow]
  rfl

/-- Filling states one after the other changes the rows of these states only. -/
theorem foldlM_fillState {dead : Nat} {states : List Nat} (hnodup : states.Nodup)
    (hlt : ∀ s ∈ states, s < d.size) (h : ∀ s ∈ states, (d.row s).Ordered)
    (hdead : ∀ s ∈ states, ∀ t ∈ d.row s, t.target ≠ dead) :
    ∃ e, states.foldlM (fillState dead) d = pure e ∧ e.start = d.start ∧ e.size = d.size ∧
      (∀ s, e.isAccepting s = d.isAccepting s) ∧ ∀ s, e.row s =
        if s ∈ states then (d.row s).fill dead (some Scalar.least) else d.row s := by
  induction states generalizing d with
  | nil => exact ⟨d, rfl, rfl, rfl, fun _ => rfl, fun s => by simp⟩
  | cons s states ih =>
    obtain ⟨hs, hnodup⟩ := List.nodup_cons.1 hnodup
    have hfill := fillState_eq (hlt s (by simp)) (h s (by simp)) (hdead s (by simp))
    have hkeep : ∀ t ∈ states, (d.setRow s ((d.row s).fill dead (some Scalar.least))).row t =
        d.row t := fun t ht => Dfa.row_setRow_of_ne d _ (by rintro rfl; exact hs ht)
    obtain ⟨e, he, hstart, hsize, haccepting, hrow⟩ := ih hnodup
      (fun t ht => by rw [Dfa.size_setRow]; exact hlt t (List.mem_cons_of_mem s ht))
      (fun t ht => by rw [hkeep t ht]; exact h t (List.mem_cons_of_mem s ht))
      (fun t ht => by rw [hkeep t ht]; exact hdead t (List.mem_cons_of_mem s ht))
    refine ⟨e, by rw [List.foldlM_cons, hfill, pure_bind, he], hstart,
      hsize.trans (Dfa.size_setRow d s _),
      fun t => (haccepting t).trans (Dfa.isAccepting_setRow d s _ t), fun t => ?_⟩
    rw [hrow]
    by_cases hst : s = t
    · rw [if_neg (hst ▸ hs), if_pos (by simp [hst]), ← hst, Dfa.row_setRow d (hlt s (by simp))]
    · rw [Dfa.row_setRow_of_ne d _ hst]
      simp [Ne.symm hst]

theorem totalize_eq (h : d.WellFormed) : totalize d = pure d.totalize := by
  have hrow : ∀ s, (d.addState.row s).Ordered ∧ ∀ t ∈ d.addState.row s, t.target ≠ d.size :=
    fun s => by
      rw [Dfa.row_addState]
      exact ⟨h.ordered_row s, fun t ht => Nat.ne_of_lt (h.target_lt_row ht)⟩
  obtain ⟨e, he, hstart, hsize, haccepting, hfill⟩ := foldlM_fillState
    (List.nodup_range (n := d.addState.size)) (fun s hs => List.mem_range.1 hs)
    (fun s _ => (hrow s).1) (fun s _ => (hrow s).2)
  rw [totalize, he]
  rw [Dfa.size_addState] at hsize
  refine congrArg pure (Dfa.eq_of_rows hstart ?_ (fun s _ => ?_) fun s hs => ?_)
  · rw [hsize, Dfa.size_totalize]
  · rw [haccepting, Dfa.isAccepting_addState, Dfa.isAccepting_totalize]
  · rw [hsize] at hs
    rw [hfill, Dfa.size_addState, if_pos (List.mem_range.2 hs), Dfa.row_addState,
      Dfa.row_totalize (Nat.le_of_lt_succ hs)]

theorem complement_eq (h : d.WellFormed) : complement d = pure d.complement := by
  rw [complement, totalize_eq h]
  rfl

/-! ## Intersection -/

/-- A transition that ends below the rest of a row has nothing in common with it. -/
theorem meet_cons_of_below {l r : Transition} {left right : Row}
    (h : ∀ u ∈ right, l.on.Before u.on) :
    Row.meet (l :: left) (r :: right) =
      ((l.on.inter? r.on).map fun common => (common, (l.target, r.target))).toList ++
        Row.meet left (r :: right) := by
  have hnone : right.filterMap (fun u => (l.on.inter? u.on).map fun common =>
      (common, (l.target, u.target))) = [] := by
    refine List.filterMap_eq_nil_iff.2 fun u hu => ?_
    rw [inter?_eq_none_of_before (.inl (h u hu))]
    rfl
  rw [Row.meet, List.flatMap_cons, List.filterMap_cons, hnone]
  cases l.on.inter? r.on <;> rfl

/-- The same for a transition of the other row. -/
theorem meet_cons_of_above {l r : Transition} {left right : Row}
    (h : ∀ u ∈ left, r.on.Before u.on) :
    Row.meet (l :: left) (r :: right) =
      ((l.on.inter? r.on).map fun common => (common, (l.target, r.target))).toList ++
        Row.meet (l :: left) right := by
  have hleft : Row.meet left (r :: right) = Row.meet left right := by
    refine List.flatMap_congr fun u hu => ?_
    rw [List.filterMap_cons, inter?_eq_none_of_before (.inr (h u hu))]
    rfl
  rw [Row.meet, List.flatMap_cons, ← Row.meet, hleft, List.filterMap_cons]
  cases l.on.inter? r.on <;> rfl

/-- A walk along two rows meets all pairs of transitions that have characters in
common: what is left behind ends below all that is to come. -/
theorem sweep_eq {left right : Row} (hl : left.Ordered) (hr : right.Ordered) :
    left.sweep right = left.meet right := by
  induction left, right using Row.sweep.induct with
  | case1 right => simp [Row.sweep, Row.meet]
  | case2 l left => simp [Row.sweep, Row.meet]
  | case3 l left r right ihleft ihright =>
    obtain ⟨hlbefore, hltail⟩ := List.pairwise_cons.1 hl
    obtain ⟨hrbefore, hrtail⟩ := List.pairwise_cons.1 hr
    have hbefore : ∀ {i j k : Interval}, i.top ≤ j.top → j.Before k → i.Before k := by
      intro i j k hij hjk
      rw [before_iff] at hjk ⊢
      omega
    rw [Row.sweep]
    by_cases hlt : l.on.hi < r.on.hi
    · rw [if_pos hlt, ihleft hltail hr, meet_cons_of_below]
      have htop : l.on.top ≤ r.on.top := Nat.le_of_lt (Scalar.lt_iff.1 hlt)
      exact fun u hu => hbefore htop (hrbefore u.on (List.mem_map_of_mem hu))
    · rw [if_neg hlt, ihright hl hrtail, meet_cons_of_above]
      have htop : r.on.top ≤ l.on.top := Nat.not_lt.1 (mt Scalar.lt_iff.2 hlt)
      exact fun u hu => hbefore htop (hlbefore u.on (List.mem_map_of_mem hu))

theorem pairs_reads (ha : a.WellFormed) (hb : b.WellFormed) :
    Draft.Reads (pairs a b) (a.pairs b) (· ∈ List.range a.size ×ˢ List.range b.size) := by
  refine ⟨fun p hp => ?_, fun p hp => ?_⟩
  all_goals
    obtain ⟨h1, h2⟩ := List.mem_product.1 hp
    rw [List.mem_range] at h1 h2
  · simp only [pairs, acceptingAt_eq h1, acceptingAt_eq h2, pure_bind]
    rfl
  · simp only [pairs, rowAt_eq h1, rowAt_eq h2, pure_bind,
      sweep_eq (ha.ordered_row p.1) (hb.ordered_row p.2)]
    rfl

theorem inter_eq (ha : a.WellFormed) (hb : b.WellFormed) : inter a b = pure (a.inter b) := by
  have hbuild := Draft.build_insertRow_eq (pairs_reads ha hb) (Dfa.confined_pairs ha hb) .stack
  rw [inter]
  exact congrArg (· >>= fun x => pure x.dfa) hbuild

end PatternAutomata.Checked
