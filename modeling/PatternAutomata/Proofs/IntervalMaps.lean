import PatternAutomata.Proofs.IntervalSets

/-!
# Insertion into a map is pointwise

An insertion cuts the intervals that the key meets and interleaves them with the
parts of the key between them. Character by character nothing of that shows:
outside the key the value stays, inside it the new value is entered, through the
unifying function where there was one already.

`Assigns` reads a list of entries as a relation between characters and values.
It turns the equation for `weave` into propositional logic over the position of
a character relative to one entry and the rest of the key.

## Main results

* `IntervalMap.ordered_insert`: the entries stay in ascending order.
* `IntervalMap.find?_insert`: the value at each character after an insertion.
-/

namespace PatternAutomata

open PatternAutomata.Interval

namespace IntervalMap

variable {α : Type u}

/-- Some entry holds the character and has the value. -/
def Assigns (entries : List (Interval × α)) (c : Char) (v : α) : Prop :=
  ∃ i, (i, v) ∈ entries ∧ c ∈ i

/-- A part of an interval is there and holds the character. -/
def Covers (part : Option Interval) (c : Char) : Prop := ∃ k ∈ part, c ∈ k

/-- `weave` with a function that has no effect. -/
def overlay (f : α → α → α) (value : α) (rest : Option Interval)
    (entries : List (Interval × α)) : List (Interval × α) :=
  Id.run (weave (fun old new => pure (f old new)) value rest entries)

@[simp] theorem not_assigns_nil {c : Char} {v : α} : ¬ Assigns ([] : List (Interval × α)) c v := by
  simp [Assigns]

@[simp] theorem assigns_cons {e : Interval × α} {entries : List (Interval × α)} {c : Char} {v : α} :
    Assigns (e :: entries) c v ↔ (c ∈ e.1 ∧ v = e.2) ∨ Assigns entries c v := by
  simp only [Assigns, List.mem_cons, or_and_right, exists_or]
  constructor
  · intro h
    rcases h with ⟨i, hi, hc⟩ | h
    · subst hi
      exact Or.inl ⟨hc, rfl⟩
    · exact Or.inr h
  · intro h
    rcases h with ⟨hc, rfl⟩ | h
    · exact Or.inl ⟨e.1, rfl, hc⟩
    · exact Or.inr h

@[simp] theorem assigns_append {xs ys : List (Interval × α)} {c : Char} {v : α} :
    Assigns (xs ++ ys) c v ↔ Assigns xs c v ∨ Assigns ys c v := by
  simp only [Assigns, List.mem_append, or_and_right, exists_or]

@[simp] theorem assigns_piece {part : Option Interval} {value : α} {c : Char} {v : α} :
    Assigns (piece part value) c v ↔ Covers part c ∧ v = value := by
  cases part with
  | none => simp [Assigns, Covers, piece]
  | some i =>
      show Assigns [(i, value)] c v ↔ _
      simp [Covers]

theorem ascending_piece (part : Option Interval) (value : α) :
    Ascending ((piece part value).map (·.1)) := by
  cases part with
  | none => exact List.Pairwise.nil
  | some i => exact List.pairwise_singleton _ _

@[simp] theorem mem_piece {part : Option Interval} {value : α} {i : Interval} :
    i ∈ (piece part value).map (·.1) ↔ i ∈ part := by
  cases part with
  | none => simp [piece]
  | some j => simp [piece, eq_comm]

@[simp] theorem overlay_none (f : α → α → α) (value : α) (entries : List (Interval × α)) :
    overlay f value none entries = entries := by
  unfold overlay weave
  rfl

@[simp] theorem overlay_nil (f : α → α → α) (value : α) (rest : Interval) :
    overlay f value (some rest) [] = [(rest, value)] := by
  unfold overlay weave
  rfl

theorem overlay_cons (f : α → α → α) (value : α) {rest i common : Interval} {old : α}
    {entries : List (Interval × α)} (h : i.inter? rest = some common) :
    overlay f value (some rest) ((i, old) :: entries) =
      piece (i.below? rest.lo) old ++ piece (rest.below? i.lo) value
        ++ (common, f old value) :: (piece (i.above? common.hi) old
          ++ overlay f value (rest.above? common.hi) entries) := by
  rw [overlay, weave, h]
  rfl

/-- What an insertion makes of the value at a character of the key. -/
def Unified (f : α → α → α) (value : α) (entries : List (Interval × α)) (c : Char)
    (v : α) : Prop :=
  (∃ old, Assigns entries c old ∧ v = f old value) ∨
    ((∀ old, ¬ Assigns entries c old) ∧ v = value)

/-! ## One entry

Here `i` is the first entry, `rest` the part of the key not yet passed, `common`
what the two share, and all later entries come after `i`.
-/

section Step

variable {i rest common : Interval} {entries : List (Interval × α)}

/-- The rest of the key above an entry still meets all later entries. -/
theorem exists_meets_above (hcommon : i.inter? rest = some common)
    (hlater : ∀ e ∈ entries, i.Before e.1) (hmeet : ∀ e ∈ entries, e.1.Meets rest) :
    ∀ e ∈ entries, ∃ k ∈ rest.above? common.hi, e.1.Meets k := by
  intro e he
  obtain ⟨c, hce, hcr⟩ := hmeet e he
  have hends := inter?_eq_some_iff.1 hcommon
  have hlt : common.hi < c := by
    have h1 := mem_iff.1 hce
    have h2 := before_iff.1 (hlater e he)
    rw [Scalar.lt_iff]
    show common.top < _
    omega
  obtain ⟨k, hk, hck⟩ := mem_above?.2 ⟨hcr, hlt⟩
  exact ⟨k, hk, c, hce, hck⟩

private theorem covers_above {j k : Interval} {c : Char} :
    Covers (j.above? k.hi) c ↔ c ∈ j ∧ k.top < c.ordinal.val := by
  rw [Covers, mem_above?, Scalar.lt_iff]
  rfl

private theorem covers_below {j k : Interval} {c : Char} :
    Covers (j.below? k.lo) c ↔ c ∈ j ∧ c.ordinal.val < k.bottom := by
  rw [Covers, mem_below?, Scalar.lt_iff]
  rfl

/-- One entry of the overlay, character by character. -/
private theorem assigns_overlay_step {f : α → α → α} {value old : α} {c : Char} {v : α}
    (hcommon : i.inter? rest = some common) (hlater : ∀ e ∈ entries, i.Before e.1)
    (ih : Assigns (overlay f value (rest.above? common.hi) entries) c v ↔
      (¬ Covers (rest.above? common.hi) c ∧ Assigns entries c v) ∨
        (Covers (rest.above? common.hi) c ∧ Unified f value entries c v)) :
    Assigns (overlay f value (some rest) ((i, old) :: entries)) c v ↔
      (¬ c ∈ rest ∧ Assigns ((i, old) :: entries) c v) ∨
        (c ∈ rest ∧ Unified f value ((i, old) :: entries) c v) := by
  have hends := inter?_eq_some_iff.1 hcommon
  have hi := i.bottom_le_top
  have hafter : ∀ w, Assigns entries c w → i.top < c.ordinal.val := by
    intro w hw
    obtain ⟨j, hj, hc⟩ := hw
    have h1 : i.top < j.bottom := before_iff.1 (hlater _ hj)
    have h2 := mem_iff.1 hc
    omega
  rw [overlay_cons f value hcommon, assigns_append, assigns_append, assigns_cons,
    assigns_append, assigns_piece, assigns_piece, assigns_piece, ih, covers_above,
    covers_above, covers_below, covers_below]
  simp only [Unified, assigns_cons, mem_iff] at *
  -- the character relative to the entry, then relative to the rest of the key
  by_cases hci : i.bottom ≤ c.ordinal.val ∧ c.ordinal.val ≤ i.top
  · have hnone : ∀ w, ¬ Assigns entries c w := by
      intro w hw
      have := hafter w hw
      omega
    by_cases hcr : rest.bottom ≤ c.ordinal.val ∧ c.ordinal.val ≤ rest.top
    · have h1 : ¬ c.ordinal.val < rest.bottom := by omega
      have h2 : ¬ c.ordinal.val < i.bottom := by omega
      have h3 : ¬ common.top < c.ordinal.val := by omega
      have h4 : common.bottom ≤ c.ordinal.val ∧ c.ordinal.val ≤ common.top := by omega
      simp [hci, hcr, h1, h2, h3, h4, hnone]
    · have h1 : ¬ (common.bottom ≤ c.ordinal.val ∧ c.ordinal.val ≤ common.top) := by omega
      have h2 : c.ordinal.val < rest.bottom ∨ common.top < c.ordinal.val := by omega
      simp only [hci, hcr, h1, hnone]
      grind
  · by_cases hcr : rest.bottom ≤ c.ordinal.val ∧ c.ordinal.val ≤ rest.top
    · have h1 : ¬ (common.bottom ≤ c.ordinal.val ∧ c.ordinal.val ≤ common.top) := by omega
      by_cases hlt : c.ordinal.val < i.bottom
      · have hnone : ∀ w, ¬ Assigns entries c w := by
          intro w hw
          have := hafter w hw
          omega
        have h2 : ¬ common.top < c.ordinal.val := by omega
        simp [hci, hcr, h1, h2, hlt, hnone]
      · have h2 : common.top < c.ordinal.val := by omega
        simp [hci, hcr, h1, h2, hlt]
    · have h1 : ¬ (common.bottom ≤ c.ordinal.val ∧ c.ordinal.val ≤ common.top) := by omega
      simp [hci, hcr, h1]

/-- What is kept of an entry above the key excludes a rest of the key. -/
private theorem kept_above (hcommon : i.inter? rest = some common) {k : Interval}
    (hk : k ∈ i.above? common.hi) :
    common.top < k.bottom ∧ k.top = i.top ∧ rest.above? common.hi = none := by
  have hends := inter?_eq_some_iff.1 hcommon
  have hcut : k.top = i.top ∧ i.bottom ≤ k.bottom ∧ common.top < k.bottom :=
    of_mem_above? hk
  have hle := k.bottom_le_top
  refine ⟨hcut.2.2, hcut.1, ?_⟩
  rw [Option.eq_none_iff_forall_not_mem]
  intro k' hk'
  have hcut' : k'.top = rest.top ∧ rest.bottom ≤ k'.bottom ∧ common.top < k'.bottom :=
    of_mem_above? hk'
  have hle' := k'.bottom_le_top
  omega

/-- Entries that hold characters of the rest of the key or of later entries only come
after the common part, and after the entry if the key ends within it. -/
private theorem tail_above (hcommon : i.inter? rest = some common)
    (hlater : ∀ e ∈ entries, i.Before e.1) {tail : List (Interval × α)}
    (htail : ∀ c v, Assigns tail c v →
      Covers (rest.above? common.hi) c ∨ Assigns entries c v) :
    ∀ j ∈ tail.map (·.1), common.top < j.bottom ∧
      (rest.above? common.hi = none → i.top < j.bottom) := by
  intro j hj
  have hends := inter?_eq_some_iff.1 hcommon
  obtain ⟨⟨j', w⟩, hjw, rfl⟩ := List.mem_map.1 hj
  rcases htail j'.lo w ⟨j', hjw, j'.lo_mem⟩ with hlo | hlo
  · have h1 : common.top < j'.bottom := (covers_above.1 hlo).2
    refine ⟨h1, fun hnone => ?_⟩
    obtain ⟨k, hk, -⟩ := hlo
    rw [hnone] at hk
    cases hk
  · obtain ⟨k, hk, hlo⟩ := hlo
    have h1 : i.top < k.bottom := before_iff.1 (hlater _ hk)
    have h2 : k.bottom ≤ j'.bottom := (mem_iff.1 hlo).1
    show common.top < j'.bottom ∧ (_ → i.top < j'.bottom)
    exact ⟨by omega, fun _ => by omega⟩

/-- One entry of the overlay stays in ascending order. -/
private theorem ascending_overlay_step {f : α → α → α} {value old : α}
    (hcommon : i.inter? rest = some common)
    (htail : Ascending ((overlay f value (rest.above? common.hi) entries).map (·.1)))
    (hbound : ∀ j ∈ (overlay f value (rest.above? common.hi) entries).map (·.1),
      common.top < j.bottom ∧ (rest.above? common.hi = none → i.top < j.bottom)) :
    Ascending ((overlay f value (some rest) ((i, old) :: entries)).map (·.1)) := by
  have hends := inter?_eq_some_iff.1 hcommon
  have hle := common.bottom_le_top
  have hlow : ∀ a ∈ (piece (i.below? rest.lo) old).map (·.1),
      a.bottom = i.bottom ∧ a.top < rest.bottom := by
    intro a ha
    have h : a.bottom = i.bottom ∧ a.top ≤ i.top ∧ a.top < rest.bottom :=
      of_mem_below? (mem_piece.1 ha)
    exact ⟨h.1, h.2.2⟩
  have hlow' : ∀ a ∈ (piece (rest.below? i.lo) value).map (·.1),
      a.bottom = rest.bottom ∧ a.top < i.bottom := by
    intro a ha
    have h : a.bottom = rest.bottom ∧ a.top ≤ rest.top ∧ a.top < i.bottom :=
      of_mem_below? (mem_piece.1 ha)
    exact ⟨h.1, h.2.2⟩
  have hhigh : ∀ b ∈ (piece (i.above? common.hi) old).map (·.1),
      common.top < b.bottom ∧ b.top = i.top ∧ rest.above? common.hi = none :=
    fun b hb => kept_above hcommon (mem_piece.1 hb)
  rw [overlay_cons f value hcommon]
  simp only [List.map_append, List.map_cons, Ascending, List.pairwise_append,
    List.pairwise_cons, List.mem_append, List.mem_cons]
  refine ⟨⟨ascending_piece _ _, ascending_piece _ _, ?_⟩,
    ⟨?_, ascending_piece _ _, htail, ?_⟩, ?_⟩
  · intro a ha b hb
    have h1 := hlow a ha
    have h2 := hlow' b hb
    have h3 := a.bottom_le_top
    have h4 := b.bottom_le_top
    omega
  · intro b hb
    rw [before_iff]
    rcases hb with hb | hb
    · exact (hhigh b hb).1
    · exact (hbound b hb).1
  · intro a ha b hb
    have h1 := hhigh a ha
    have h2 := (hbound b hb).2 h1.2.2
    rw [before_iff]
    omega
  · intro a ha b hb
    have h1 : a.top < common.bottom := by
      rcases ha with ha | ha
      · have := hlow a ha
        omega
      · have := hlow' a ha
        omega
    have h2 : common.bottom ≤ b.bottom := by
      rcases hb with rfl | hb | hb
      · exact Nat.le_refl _
      · have := (hhigh b hb).1
        omega
      · have := (hbound b hb).1
        omega
    rw [before_iff]
    omega

end Step

/-! ## All entries -/

/-- Induction along ascending entries that the rest of a key meets: each takes what it has
in common with the rest, and what follows is met above that. -/
@[elab_as_elim]
theorem meeting_induction {motive : Option Interval → List (Interval × α) → Prop}
    (nil : ∀ rest, motive rest [])
    (cons : ∀ {i rest common : Interval} {old : α} {entries : List (Interval × α)},
      i.inter? rest = some common → (∀ e ∈ entries, i.Before e.1) →
      Ascending (entries.map (·.1)) →
      (∀ e ∈ entries, ∃ r ∈ rest.above? common.hi, e.1.Meets r) →
      motive (rest.above? common.hi) entries → motive (some rest) ((i, old) :: entries))
    {entries : List (Interval × α)} (hasc : Ascending (entries.map (·.1)))
    (rest : Option Interval) (hmeet : ∀ e ∈ entries, ∃ r ∈ rest, e.1.Meets r) :
    motive rest entries := by
  induction entries generalizing rest with
  | nil => exact nil rest
  | cons e entries ih =>
      obtain ⟨i, old⟩ := e
      obtain ⟨r, hr, hir⟩ := hmeet (i, old) List.mem_cons_self
      obtain rfl : rest = some r := hr
      obtain ⟨hfirst, hasc⟩ := List.pairwise_cons.1 hasc
      have hlater : ∀ e ∈ entries, i.Before e.1 := by
        intro e he
        exact hfirst e.1 (List.mem_map.2 ⟨e, he, rfl⟩)
      have hothers : ∀ e ∈ entries, e.1.Meets r := by
        intro e he
        obtain ⟨k, hk, hmeets⟩ := hmeet e (List.mem_cons_of_mem _ he)
        cases hk
        exact hmeets
      obtain ⟨common, hcommon⟩ :=
        Option.ne_none_iff_exists'.1 (mt inter?_eq_none_iff.1 (not_not_intro hir))
      have habove := exists_meets_above hcommon hlater hothers
      exact cons hcommon hlater hasc habove (ih hasc (r.above? common.hi) habove)

/-- The overlay changes exactly the characters of the key. -/
theorem assigns_overlay (f : α → α → α) (value : α) {entries : List (Interval × α)}
    (hasc : Ascending (entries.map (·.1))) (rest : Option Interval)
    (hmeet : ∀ e ∈ entries, ∃ r ∈ rest, e.1.Meets r) (c : Char) (v : α) :
    Assigns (overlay f value rest entries) c v ↔
      (¬ Covers rest c ∧ Assigns entries c v) ∨
        (Covers rest c ∧ Unified f value entries c v) := by
  refine meeting_induction (fun rest => ?_) (fun hcommon hlater _ _ ih => ?_) hasc rest hmeet
  · cases rest with
    | none => simp [Covers, Assigns]
    | some r =>
        simp [Covers, Unified]
  · rw [assigns_overlay_step hcommon hlater ih]
    simp [Covers]

/-- The overlay of ascending entries ascends. -/
theorem ascending_overlay (f : α → α → α) (value : α) {entries : List (Interval × α)}
    (hasc : Ascending (entries.map (·.1))) (rest : Option Interval)
    (hmeet : ∀ e ∈ entries, ∃ r ∈ rest, e.1.Meets r) :
    Ascending ((overlay f value rest entries).map (·.1)) := by
  refine meeting_induction (fun rest => ?_) (fun hcommon hlater hasc habove ih => ?_)
    hasc rest hmeet
  · cases rest with
    | none => exact List.Pairwise.nil
    | some r =>
        rw [overlay_nil]
        exact List.pairwise_singleton _ _
  · refine ascending_overlay_step hcommon ih (tail_above hcommon hlater ?_)
    intro c v hv
    rcases (assigns_overlay f value hasc _ habove c v).1 hv with h | h
    · exact Or.inr h.2
    · exact Or.inl h.1

/-- The entries that the key meets stand between those before and after it. -/
theorem exists_split {m : IntervalMap α} (h : m.Ordered) (key : Interval) :
    ∃ pre mid post, m.entries = pre ++ mid ++ post ∧
      intersecting (m.entries.map (·.1)) key = ⟨pre.length, pre.length + mid.length⟩ ∧
      (∀ e ∈ pre, e.1.Before key) ∧ (∀ e ∈ mid, e.1.Meets key) ∧
      ∀ e ∈ post, key.Before e.1 := by
  obtain ⟨keys, keys', keys'', hkeys, hr, hpre, hmid, hpost⟩ := intersecting_split h key
  obtain ⟨front, post, hentries, hfront, hpost'⟩ := List.map_eq_append_iff.1 hkeys
  obtain ⟨pre, mid, hfront', hpre', hmid'⟩ := List.map_eq_append_iff.1 hfront
  subst hfront' hpre' hmid' hpost'
  simp only [List.length_map] at hr
  refine ⟨pre, mid, post, hentries, hr, ?_, ?_, ?_⟩
  · intro e he
    exact hpre e.1 (List.mem_map.2 ⟨e, he, rfl⟩)
  · intro e he
    exact hmid e.1 (List.mem_map.2 ⟨e, he, rfl⟩)
  · intro e he
    exact hpost e.1 (List.mem_map.2 ⟨e, he, rfl⟩)

theorem Ordered.middle {m : IntervalMap α} (h : m.Ordered) {pre mid post : List (Interval × α)}
    (hm : m.entries = pre ++ mid ++ post) : Ascending (mid.map (·.1)) := by
  rw [Ordered, hm] at h
  simp only [List.map_append, Ascending, List.pairwise_append] at h
  exact h.1.2.1

/-- An insertion replaces the entries that are found. -/
theorem insertM_of_split {M : Type u → Type v} [Monad M] (unify : α → α → M α)
    {m : IntervalMap α} {pre mid post : List (Interval × α)} {key : Interval}
    (hm : m.entries = pre ++ mid ++ post)
    (hr : intersecting (m.entries.map (·.1)) key = ⟨pre.length, pre.length + mid.length⟩)
    (value : α) :
    m.insertM unify key value = do
      let woven ← weave unify value (some key) mid
      return ⟨pre ++ woven ++ post⟩ := by
  rw [insertM, hr, hm, IndexRange.slice_split]
  simp only [IndexRange.splice_split]

/-- An insertion replaces the entries that the key meets by their overlay. -/
theorem insert_split (f : α → α → α) {m : IntervalMap α} (h : m.Ordered) (key : Interval)
    (value : α) :
    ∃ pre mid post, m.entries = pre ++ mid ++ post ∧
      (m.insert f key value).entries = pre ++ overlay f value (some key) mid ++ post ∧
      (∀ e ∈ pre, e.1.Before key) ∧ (∀ e ∈ mid, e.1.Meets key) ∧
      ∀ e ∈ post, key.Before e.1 := by
  obtain ⟨pre, mid, post, hm, hr, hpre, hmid, hpost⟩ := exists_split h key
  refine ⟨pre, mid, post, hm, ?_, hpre, hmid, hpost⟩
  rw [insert, insertM_of_split _ hm hr]
  rfl

/-- An insertion keeps the entries in ascending order. -/
theorem ordered_insert (f : α → α → α) {m : IntervalMap α} (h : m.Ordered) (key : Interval)
    (value : α) : (m.insert f key value).Ordered := by
  obtain ⟨pre, mid, post, hm, hins, hpre, hmid, hpost⟩ := insert_split f h key value
  rw [Ordered, hm] at h
  simp only [List.map_append, Ascending, List.pairwise_append, List.mem_append] at h
  have hmeet : ∀ e ∈ mid, ∃ r ∈ some key, e.1.Meets r := by
    intro e he
    exact ⟨key, rfl, hmid e he⟩
  have hwoven := ascending_overlay f value h.1.2.1 (some key) hmeet
  have hchar : ∀ j ∈ (overlay f value (some key) mid).map (·.1), ∀ c ∈ j,
      c ∈ key ∨ ∃ e ∈ mid, c ∈ e.1 := by
    intro j hj c hc
    obtain ⟨⟨j, v⟩, hjv, rfl⟩ := List.mem_map.1 hj
    rcases (assigns_overlay f value h.1.2.1 (some key) hmeet c v).1 ⟨j, hjv, hc⟩ with hv | hv
    · obtain ⟨-, i, hi, hc⟩ := hv
      exact Or.inr ⟨(i, v), hi, hc⟩
    · obtain ⟨⟨k, hk, hc⟩, -⟩ := hv
      cases hk
      exact Or.inl hc
  rw [Ordered, hins]
  simp only [List.map_append, Ascending, List.pairwise_append, List.mem_append]
  refine ⟨⟨h.1.1, hwoven, ?_⟩, h.2.1, ?_⟩
  · intro a ha j hj
    obtain ⟨e, he, rfl⟩ := List.mem_map.1 ha
    rcases hchar j hj j.lo j.lo_mem with hlo | ⟨e', he', hlo⟩
    · have h1 := before_iff.1 (hpre e he)
      have h2 : key.bottom ≤ j.bottom := (mem_iff.1 hlo).1
      rw [before_iff]
      omega
    · have h1 := before_iff.1 (h.1.2.2 e.1 ha e'.1 (List.mem_map.2 ⟨e', he', rfl⟩))
      have h2 : e'.1.bottom ≤ j.bottom := (mem_iff.1 hlo).1
      rw [before_iff]
      omega
  · intro j hj b hb
    obtain ⟨e, he, rfl⟩ := List.mem_map.1 hb
    rcases hj with hj | hj
    · exact h.2.2 j (Or.inl hj) e.1 hb
    · rcases hchar j hj j.hi j.hi_mem with hhi | ⟨e', he', hhi⟩
      · have h1 := before_iff.1 (hpost e he)
        have h2 : j.top ≤ key.top := (mem_iff.1 hhi).2
        rw [before_iff]
        omega
      · have h1 := before_iff.1 (h.2.2 e'.1 (Or.inr (List.mem_map.2 ⟨e', he', rfl⟩)) e.1 hb)
        have h2 : j.top ≤ e'.1.top := (mem_iff.1 hhi).2
        rw [before_iff]
        omega

theorem find?_eq_some_iff {m : IntervalMap α} (h : m.Ordered) {c : Char} {v : α} :
    m.find? c = some v ↔ Assigns m.entries c v :=
  valueAt?_eq_some_iff h

theorem find?_eq_none_iff {m : IntervalMap α} {c : Char} :
    m.find? c = none ↔ ∀ v, ¬ Assigns m.entries c v := by
  rw [show m.find? c = valueAt? m.entries c from rfl, valueAt?_eq_none_iff]
  constructor
  · rintro h v ⟨i, hi, hc⟩
    exact h (i, v) hi hc
  · rintro h ⟨i, v⟩ hi hc
    exact h v ⟨i, hi, hc⟩

/-- The entries at a character after an insertion. -/
theorem assigns_insert (f : α → α → α) {m : IntervalMap α} (h : m.Ordered) (key : Interval)
    (value : α) (c : Char) (v : α) :
    Assigns (m.insert f key value).entries c v ↔
      (c ∉ key ∧ Assigns m.entries c v) ∨ (c ∈ key ∧ Unified f value m.entries c v) := by
  obtain ⟨pre, mid, post, hm, hins, hpre, hmid, hpost⟩ := insert_split f h key value
  have hmeet : ∀ e ∈ mid, ∃ r ∈ some key, e.1.Meets r := by
    intro e he
    exact ⟨key, rfl, hmid e he⟩
  have hoverlay := assigns_overlay f value (h.middle hm) (some key) hmeet c v
  have hcovers : Covers (some key) c ↔ c ∈ key := by
    simp only [Covers, Option.mem_some_iff, exists_eq_left']
  have hpre' : c ∈ key → ∀ w, ¬ Assigns pre c w := by
    rintro hc w ⟨i, hi, hci⟩
    exact (hpre _ hi).not_mem_left hc hci
  have hpost' : c ∈ key → ∀ w, ¬ Assigns post c w := by
    rintro hc w ⟨i, hi, hci⟩
    exact (hpost _ hi).not_mem_right hc hci
  rw [hins, hm]
  simp only [Unified, assigns_append, hoverlay, hcovers]
  by_cases hc : c ∈ key
  · simp only [hc, hpre' hc, hpost' hc, not_true_eq_false, false_and, true_and, false_or,
      or_false]
  · simp only [hc, not_false_eq_true, true_and, false_and, or_false]

/-- The value at each character after an insertion. -/
theorem find?_insert (f : α → α → α) {m : IntervalMap α} (h : m.Ordered) (key : Interval)
    (value : α) (c : Char) :
    (m.insert f key value).find? c =
      if c ∈ key then some ((m.find? c).elim value (f · value)) else m.find? c := by
  have hassigns := assigns_insert f h key value c
  have hordered := ordered_insert f h key value
  by_cases hc : c ∈ key
  · rw [if_pos hc, find?_eq_some_iff hordered, hassigns]
    refine Or.inr ⟨hc, ?_⟩
    cases hfind : m.find? c with
    | none => exact Or.inr ⟨find?_eq_none_iff.1 hfind, rfl⟩
    | some old => exact Or.inl ⟨old, (find?_eq_some_iff h).1 hfind, rfl⟩
  · rw [if_neg hc]
    refine Option.ext fun v => ?_
    rw [find?_eq_some_iff hordered, find?_eq_some_iff h, hassigns]
    simp [hc]

end IntervalMap

end PatternAutomata
