import PatternAutomata.Interval.Edits
import PatternAutomata.Proofs.CheckedIntervals
import PatternAutomata.Proofs.SetAlgebra

/-!
# One list of intervals for each set of characters

The first interval of a set begins at the least member. It ends where the next character
is not a member, because the other intervals do not touch it. So the members determine the
first interval, and by induction all of them.

All operations keep the intervals clear of each other. Hence two sets that came about in
different ways and have the same members are equal.

## Main results

* `eq_of_mem_iff`: sets in canonical form with the same members are equal.
* `ofEdits_spec`: whatever operations a set has come from, it is canonical, holds what they
  say, and depends on nothing else.
-/

namespace PatternAutomata.IntervalSet

open PatternAutomata.Interval

variable {s t : IntervalSet} {is js : List Interval} {i j : Interval} {c : Char}

/-! ## The first interval -/

theorem bottom_le_of_mem (h : (i :: is).Pairwise Clear) (hc : ∃ k ∈ i :: is, c ∈ k) :
    i.bottom ≤ c.ordinal.val := by
  obtain ⟨k, hk, hck⟩ := hc
  have hlow := (mem_iff.1 hck).1
  rcases List.mem_cons.1 hk with rfl | hk
  · exact hlow
  · have hclear : i.top + 1 < k.bottom := (List.pairwise_cons.1 h).1 k hk
    have hle := i.bottom_le_top
    omega

/-- No interval holds the character after the first one. -/
theorem not_mem_after (h : (i :: is).Pairwise Clear) (hc : c.ordinal.val = i.top + 1) :
    ¬ ∃ k ∈ i :: is, c ∈ k := by
  rintro ⟨k, hk, hck⟩
  rw [mem_iff] at hck
  rcases List.mem_cons.1 hk with rfl | hk
  · omega
  · have hclear : i.top + 1 < k.bottom := (List.pairwise_cons.1 h).1 k hk
    omega

/-- An interval that begins like the first one and holds members only ends no later. -/
theorem top_le_of_subset (h : (i :: is).Pairwise Clear) (hbottom : i.bottom = j.bottom)
    (hj : ∀ c ∈ j, ∃ k ∈ i :: is, c ∈ k) : j.top ≤ i.top := by
  by_contra hlt
  obtain ⟨c, hc⟩ := exists_ordinal_eq (n := i.top + 1) (c := j.hi) (Nat.lt_of_not_le hlt)
  have hle := i.bottom_le_top
  have hmem : c ∈ j := mem_iff.2 ⟨by omega, by omega⟩
  exact not_mem_after h hc (hj c hmem)

/-- The first interval takes nothing away from the others. -/
theorem exists_mem_tail_iff (h : (i :: is).Pairwise Clear) :
    (∃ k ∈ is, c ∈ k) ↔ (∃ k ∈ i :: is, c ∈ k) ∧ c ∉ i := by
  constructor
  · rintro ⟨k, hk, hck⟩
    refine ⟨⟨k, List.mem_cons_of_mem i hk, hck⟩, ?_⟩
    have hclear : i.top + 1 < k.bottom := (List.pairwise_cons.1 h).1 k hk
    rw [mem_iff] at hck ⊢
    omega
  · rintro ⟨⟨k, hk, hck⟩, hnot⟩
    rcases List.mem_cons.1 hk with rfl | hk
    · exact absurd hck hnot
    · exact ⟨k, hk, hck⟩

theorem eq_of_clear (his : is.Pairwise Clear) (hjs : js.Pairwise Clear)
    (h : ∀ c, (∃ i ∈ is, c ∈ i) ↔ ∃ j ∈ js, c ∈ j) : is = js := by
  induction is generalizing js with
  | nil =>
      cases js with
      | nil => rfl
      | cons j js => simpa using (h j.lo).2 ⟨j, List.mem_cons_self .., j.lo_mem⟩
  | cons i is ih =>
      cases js with
      | nil => simpa using (h i.lo).1 ⟨i, List.mem_cons_self .., i.lo_mem⟩
      | cons j js =>
          have hi : ∀ c ∈ i, ∃ k ∈ j :: js, c ∈ k := fun c hc =>
            (h c).1 ⟨i, List.mem_cons_self .., hc⟩
          have hj : ∀ c ∈ j, ∃ k ∈ i :: is, c ∈ k := fun c hc =>
            (h c).2 ⟨j, List.mem_cons_self .., hc⟩
          have hbottom : i.bottom = j.bottom :=
            Nat.le_antisymm (bottom_le_of_mem his (hj j.lo j.lo_mem))
              (bottom_le_of_mem hjs (hi i.lo i.lo_mem))
          have htop : i.top = j.top :=
            Nat.le_antisymm (top_le_of_subset hjs hbottom.symm hi)
              (top_le_of_subset his hbottom hj)
          obtain rfl : i = j := eq_of_ends hbottom htop
          have htail : is = js := by
            refine ih (List.pairwise_cons.1 his).2 (List.pairwise_cons.1 hjs).2 fun c => ?_
            rw [exists_mem_tail_iff his, exists_mem_tail_iff hjs, h c]
          rw [htail]

/-- Sets in canonical form with the same members are equal. -/
theorem eq_of_mem_iff (hs : s.Canonical) (ht : t.Canonical) (h : ∀ c, c ∈ s ↔ c ∈ t) :
    s = t := by
  have hintervals : s.intervals = t.intervals :=
    eq_of_clear (apart_iff.1 hs) (apart_iff.1 ht) h
  cases s
  cases t
  exact congrArg mk hintervals

/-! ## Operations one after the other -/

theorem canonical_edit (h : s.Canonical) (e : Edit) : (s.edit e).Canonical := by
  cases e with
  | clear => exact canonical_empty
  | insert i => exact canonical_insert h i
  | invert => exact canonical_invert h
  | ofChars cs => exact canonical_ofIntervals (cs.map Interval.singleton)
  | ofIntervals is => exact canonical_ofIntervals is

theorem mem_edit {before : Set Char} (h : s.Canonical) (hbefore : ∀ c, c ∈ s ↔ c ∈ before)
    (e : Edit) (c : Char) : c ∈ s.edit e ↔ c ∈ e.members before := by
  cases e with
  | clear => exact iff_of_false (not_mem_empty c) (Set.notMem_empty c)
  | insert i => exact (mem_insert h).trans (or_congr Iff.rfl (hbefore c))
  | invert => exact (mem_invert h).trans (not_congr (hbefore c))
  | ofChars cs => exact mem_ofChars
  | ofIntervals is => exact mem_ofIntervals

theorem editSet_eq (h : s.Canonical) (e : Edit) : Checked.editSet s e = pure (s.edit e) := by
  cases e with
  | clear => rfl
  | insert i => exact Checked.insertSet_eq h i
  | invert => exact Checked.invert_eq s
  | ofChars cs =>
      have hsingle : ∀ c ∈ cs, Checked.singleton c = pure (Interval.singleton c) :=
        fun c _ => Checked.ofBounds_eq rfl rfl
      rw [Checked.editSet, Checked.mapM_eq hsingle, pure_bind]
      exact Checked.ofIntervals_eq (cs.map Interval.singleton)
  | ofIntervals is => exact Checked.ofIntervals_eq is

/-- What an operation keeps, any number of operations keep. -/
theorem foldl_edit_spec {before : Set Char} (hs : s.Canonical)
    (hbefore : ∀ c, c ∈ s ↔ c ∈ before) (edits : List Edit) :
    edits.foldlM Checked.editSet s = pure (edits.foldl edit s) ∧
    (edits.foldl edit s).Canonical ∧
    ∀ c, c ∈ edits.foldl edit s ↔ c ∈ edits.foldl Edit.members before := by
  induction edits generalizing s before with
  | nil => exact ⟨rfl, hs, hbefore⟩
  | cons e edits ih =>
      rw [List.foldlM_cons, editSet_eq hs e, pure_bind]
      exact ih (canonical_edit hs e) (mem_edit hs hbefore e)

theorem ofEdits_facts (edits : List Edit) :
    edits.foldlM Checked.editSet ∅ = pure (ofEdits edits) ∧ (ofEdits edits).Canonical ∧
    ∀ c, c ∈ ofEdits edits ↔ c ∈ edits.foldl Edit.members ∅ :=
  foldl_edit_spec canonical_empty
    (fun c => iff_of_false (not_mem_empty c) (Set.notMem_empty c)) edits

theorem canonical_ofEdits (edits : List Edit) : (ofEdits edits).Canonical :=
  (ofEdits_facts edits).2.1

/-- Intervals may be added in any order. -/
theorem foldl_insert_eq_of_perm (h : s.Canonical) (hperm : is.Perm js) :
    is.foldl insert s = js.foldl insert s := by
  obtain ⟨his, hmemis⟩ := foldl_insert_spec is h
  obtain ⟨hjs, hmemjs⟩ := foldl_insert_spec js h
  refine eq_of_mem_iff his hjs fun c => ?_
  simp only [hmemis, hmemjs, hperm.mem_iff]

theorem invert_invert (h : s.Canonical) : s.invert.invert = s := by
  have hinvert := canonical_invert h
  refine eq_of_mem_iff (canonical_invert hinvert) h fun c => ?_
  rw [mem_invert hinvert, mem_invert h, Classical.not_not]

/-- After any operations, none of which fails, the intervals of a set ascend without
touching, where the characters around the surrogates touch, and hold the characters that
the operations on sets of characters leave. Sets with the same members are equal, in
whatever way they came about, so intervals may be added in any order and the complement of
the complement is the set. -/
theorem ofEdits_spec :
    (∀ edits, edits.foldlM Checked.editSet ∅ = pure (ofEdits edits) ∧
      (ofEdits edits).Canonical ∧
      ∀ c, c ∈ ofEdits edits ↔ c ∈ edits.foldl Edit.members ∅) ∧
    (∀ i j : Interval, i.hi = '\uD7FF' → j.lo = '\uE000' → i.Touches j) ∧
    (∀ edits edits', (∀ c, c ∈ ofEdits edits ↔ c ∈ ofEdits edits') →
      ofEdits edits = ofEdits edits') ∧
    (∀ (edits : List Edit) (is js : List Interval), is.Perm js →
      ofEdits (edits ++ is.map .insert) = ofEdits (edits ++ js.map .insert)) ∧
    ∀ edits, ofEdits (edits ++ [.invert, .invert]) = ofEdits edits := by
  refine ⟨?_, ?_, ?_, ?_, ?_⟩
  · exact ofEdits_facts
  · intro i j hi hj
    refine Or.inl ?_
    rw [hi, hj]
    decide
  · intro edits edits' h
    exact eq_of_mem_iff (canonical_ofEdits edits) (canonical_ofEdits edits') h
  · intro edits is js hperm
    rw [ofEdits, ofEdits, List.foldl_append, List.foldl_append, List.foldl_map, List.foldl_map]
    exact foldl_insert_eq_of_perm (canonical_ofEdits edits) hperm
  · intro edits
    rw [ofEdits, List.foldl_append]
    exact invert_invert (canonical_ofEdits edits)

/-- Two characters on both sides of the surrogates, one by one. -/
def besideSurrogates : List Edit :=
  [.insert (.singleton '\uD7FF'), .insert (.singleton '\uE000')]

/-- The same characters at once, the other way round, and past two complements. -/
def besideSurrogatesAgain : List Edit := [.ofChars ['\uE000', '\uD7FF'], .invert, .invert]

/-- Both ways lead to one interval. -/
theorem ofEdits_besideSurrogates :
    (∀ c, c ∈ ofEdits besideSurrogates ↔ c ∈ ofEdits besideSurrogatesAgain) ∧
    ofEdits besideSurrogates = ofEdits besideSurrogatesAgain ∧
    ofEdits besideSurrogates = ⟨[⟨'\uD7FF', '\uE000', by decide⟩]⟩ ∧
    ofEdits ([] ++ [Interval.singleton 'b', .singleton 'a'].map .insert) =
      ofEdits ([] ++ [Interval.singleton 'a', .singleton 'b'].map .insert) := by
  obtain ⟨hedits, -, hunique, horder, -⟩ := ofEdits_spec
  have hmem : ∀ c, c ∈ ofEdits besideSurrogates ↔ c ∈ ofEdits besideSurrogatesAgain := by
    intro c
    rw [(hedits besideSurrogates).2.2, (hedits besideSurrogatesAgain).2.2]
    simp only [besideSurrogates, besideSurrogatesAgain, Edit.members, List.foldl_cons,
      List.foldl_nil, Set.mem_compl_iff, not_not, Set.mem_union, Set.mem_ofPred_eq,
      Set.mem_empty_iff_false, or_false, List.mem_cons, List.not_mem_nil, Interval.mem_singleton]
  exact ⟨hmem, hunique _ _ hmem, by decide +kernel, horder [] _ _ (.swap ..)⟩

end PatternAutomata.IntervalSet
