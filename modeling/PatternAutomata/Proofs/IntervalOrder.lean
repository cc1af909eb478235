import PatternAutomata.Interval.Lists

/-!
# Intervals as ranges of ordinals

Every comparison of intervals is one of the ordinals of their ends, so the
questions that sorted lists raise (which of two intervals comes first, whether
they touch, what their hull is) are linear arithmetic. `bottom` and `top` are
the two ordinals, and the lemmas here put the relations of `Interval` in terms
of them.

A list of keyed intervals is read through `valueAt?`, the value of the first
interval that holds a character. In an ascending list no other interval holds
it, so the order of the search does not matter (`valueAt?_eq_some_iff`).
-/

namespace PatternAutomata.Interval

/-! ## Ends as numbers -/

/-- The ordinal of the lower end. -/
def bottom (i : Interval) : Nat := i.lo.ordinal.val

/-- The ordinal of the upper end. -/
def top (i : Interval) : Nat := i.hi.ordinal.val

theorem bottom_le_top (i : Interval) : i.bottom ≤ i.top := Scalar.le_iff.1 i.lo_le_hi

theorem mem_iff {c : Char} {i : Interval} :
    c ∈ i ↔ i.bottom ≤ c.ordinal.val ∧ c.ordinal.val ≤ i.top := by
  rw [mem_def, Scalar.le_iff, Scalar.le_iff, bottom, top]

theorem hi_lt_lo_iff {i j : Interval} : i.hi < j.lo ↔ i.top < j.bottom := Scalar.lt_iff

theorem lo_le_hi_iff {i j : Interval} : i.lo ≤ j.hi ↔ i.bottom ≤ j.top := Scalar.le_iff

theorem before_iff {i j : Interval} : i.Before j ↔ i.top < j.bottom := hi_lt_lo_iff

theorem Before.not_mem_left {i j : Interval} {c : Char} (h : i.Before j) (hc : c ∈ j) :
    c ∉ i := by
  intro hci
  rw [before_iff] at h
  rw [mem_iff] at hc hci
  omega

theorem Before.not_mem_right {i j : Interval} {c : Char} (h : i.Before j) (hc : c ∈ i) :
    c ∉ j := fun hcj => h.not_mem_left hcj hc

theorem meets_comm {i j : Interval} : i.Meets j ↔ j.Meets i := exists_congr fun _ => and_comm

theorem Before.not_meets {i j : Interval} (h : i.Before j) : ¬ i.Meets j := by
  rintro ⟨c, hci, hcj⟩
  exact h.not_mem_left hcj hci

theorem touches_iff {i j : Interval} :
    i.Touches j ↔ j.bottom = i.top + 1 ∨ i.bottom = j.top + 1 := by
  rw [Touches, Scalar.next?_eq_some_iff, Scalar.next?_eq_some_iff]
  rfl

theorem touches_comm {i j : Interval} : i.Touches j ↔ j.Touches i := or_comm

/-- Intervals with the same ends are equal. -/
theorem eq_of_ends {i j : Interval} (hb : i.bottom = j.bottom) (ht : i.top = j.top) :
    i = j := by
  obtain ⟨lo, hi, hlo⟩ := i
  obtain ⟨lo', hi', hlo'⟩ := j
  have h1 : lo = lo' := Scalar.eq_iff.2 hb
  have h2 : hi = hi' := Scalar.eq_iff.2 ht
  subst h1 h2
  rfl

@[simp] theorem bottom_hull (i j : Interval) : (i.hull j).bottom = min i.bottom j.bottom := by
  simp only [hull, bottom, lesser, Scalar.le_iff]
  split <;> omega

@[simp] theorem top_hull (i j : Interval) : (i.hull j).top = max i.top j.top := by
  simp only [hull, top, greater, Scalar.le_iff]
  split <;> omega

theorem ends_hull {i j : Interval} (h : i.Before j) :
    (i.hull j).lo = i.lo ∧ (i.hull j).hi = j.hi := by
  have hb := i.bottom_le_top
  have ht := j.bottom_le_top
  rw [before_iff] at h
  have hlo : i.lo ≤ j.lo := Scalar.le_iff.2 (by simp only [bottom, top] at *; omega)
  have hhi : i.hi ≤ j.hi := Scalar.le_iff.2 (by simp only [bottom, top] at *; omega)
  exact ⟨if_pos hlo, if_pos hhi⟩

theorem lo_mem (i : Interval) : i.lo ∈ i := ⟨Char.le_refl _, i.lo_le_hi⟩

theorem hi_mem (i : Interval) : i.hi ∈ i := ⟨i.lo_le_hi, Char.le_refl _⟩

/-- Every number up to that of a character is one of a character. -/
theorem exists_ordinal_eq {n : Nat} {c : Char} (h : n ≤ c.ordinal.val) :
    ∃ d : Char, d.ordinal.val = n := by
  have hc := Scalar.ordinal_lt c
  exact ⟨Char.ofOrdinal ⟨n, by omega⟩, by simp⟩

/-- Sharing a character, by the ends. -/
theorem meets_iff {i j : Interval} : i.Meets j ↔ i.bottom ≤ j.top ∧ j.bottom ≤ i.top := by
  constructor
  · rintro ⟨c, hci, hcj⟩
    rw [mem_iff] at hci hcj
    omega
  · intro h
    rcases Nat.le_total i.bottom j.bottom with hle | hle
    · exact ⟨j.lo, mem_iff.2 (show i.bottom ≤ j.bottom ∧ j.bottom ≤ i.top by omega), j.lo_mem⟩
    · exact ⟨i.lo, i.lo_mem, mem_iff.2 (show j.bottom ≤ i.bottom ∧ i.bottom ≤ j.top by omega)⟩

instance (i j : Interval) : Decidable (i.Meets j) := decidable_of_iff _ meets_iff.symm

/-! ## Numbers within an interval -/

/-- The characters of an interval, by their numbers. -/
theorem nth?_eq_some_iff {i : Interval} {n : Nat} {c : Char} :
    i.nth? n = some c ↔ c.ordinal.val = i.bottom + n ∧ c ∈ i := by
  rw [nth?, Option.filter_eq_some_iff, Scalar.nthAfter?_eq_some_iff, decide_eq_true_iff,
    Scalar.le_iff, mem_iff]
  have hb : i.bottom = i.lo.ordinal.val := rfl
  have ht : i.top = i.hi.ordinal.val := rfl
  omega

theorem size_eq (i : Interval) : i.size = i.top + 1 - i.bottom := rfl

/-- The numbers below the size are those of characters. -/
theorem exists_nth? {i : Interval} {n : Nat} (h : n < i.size) :
    ∃ c, i.nth? n = some c ∧ c ∈ i := by
  rw [size_eq] at h
  have hle : i.bottom + n ≤ i.hi.ordinal.val := by
    have ht : i.top = i.hi.ordinal.val := rfl
    omega
  obtain ⟨c, hc⟩ := exists_ordinal_eq hle
  have hmem : c ∈ i := by
    rw [mem_iff]
    have ht : i.top = i.hi.ordinal.val := rfl
    omega
  exact ⟨c, nth?_eq_some_iff.2 ⟨hc, hmem⟩, hmem⟩

theorem exists_nth?_of_mem {i : Interval} {c : Char} (h : c ∈ i) :
    ∃ n < i.size, i.nth? n = some c := by
  have hends := mem_iff.1 h
  refine ⟨c.ordinal.val - i.bottom, ?_, nth?_eq_some_iff.2 ⟨?_, h⟩⟩
  · rw [size_eq]
    omega
  · omega

/-! ## The parts that are cut off -/

theorem inter?_eq_some_iff {i j k : Interval} :
    i.inter? j = some k ↔
      k.bottom = max i.bottom j.bottom ∧ k.top = min i.top j.top := by
  rw [inter?, ofBounds?_eq_some_iff, Scalar.eq_iff, Scalar.eq_iff]
  simp only [greater, lesser, bottom, top, Scalar.le_iff]
  constructor
  · rintro ⟨h1, h2⟩
    rw [h1, h2]
    constructor <;> split <;> omega
  · rintro ⟨h1, h2⟩
    rw [h1, h2]
    constructor <;> split <;> omega

theorem inter?_eq_none_iff {i j : Interval} : i.inter? j = none ↔ ¬ i.Meets j := by
  rw [Option.eq_none_iff_forall_not_mem]
  constructor
  · rintro h ⟨c, hc⟩
    obtain ⟨k, hk, -⟩ := mem_inter?.2 hc
    exact h k hk
  · intro h k hk
    exact h ⟨k.lo, mem_inter?.1 ⟨k, hk, k.lo_mem⟩⟩

theorem inter?_eq_none_of_before {i j : Interval} (h : i.Before j ∨ j.Before i) :
    i.inter? j = none := by
  rw [inter?_eq_none_iff]
  rcases h with h | h
  · exact h.not_meets
  · rw [meets_comm]
    exact h.not_meets

theorem of_mem_below? {i k : Interval} {c : Char} (h : k ∈ i.below? c) :
    k.bottom = i.bottom ∧ k.top ≤ i.top ∧ k.top < c.ordinal.val := by
  have hk : k.hi ∈ i ∧ k.hi < c := mem_below?.1 ⟨k, h, k.hi_mem⟩
  have htop : k.top ≤ i.top ∧ k.top < c.ordinal.val :=
    ⟨(mem_iff.1 hk.1).2, Scalar.lt_iff.1 hk.2⟩
  unfold below? at h
  obtain ⟨p, -, hp⟩ := Option.bind_eq_some_iff.1 h
  exact ⟨by rw [bottom, (ofBounds?_eq_some_iff.1 hp).1]; rfl, htop⟩

theorem of_mem_above? {i k : Interval} {c : Char} (h : k ∈ i.above? c) :
    k.top = i.top ∧ i.bottom ≤ k.bottom ∧ c.ordinal.val < k.bottom := by
  have hk : k.lo ∈ i ∧ c < k.lo := mem_above?.1 ⟨k, h, k.lo_mem⟩
  have hbottom : i.bottom ≤ k.bottom ∧ c.ordinal.val < k.bottom :=
    ⟨(mem_iff.1 hk.1).1, Scalar.lt_iff.1 hk.2⟩
  unfold above? at h
  obtain ⟨p, -, hp⟩ := Option.bind_eq_some_iff.1 h
  exact ⟨by rw [top, (ofBounds?_eq_some_iff.1 hp).2]; rfl, hbottom⟩

/-! ## Characters from a point on -/

/-- The character comes from the given point on; there is none from `none` on. -/
def From (start : Option Char) (c : Char) : Prop := ∃ b, start = some b ∧ b ≤ c

@[simp] theorem from_some {b c : Char} : From (some b) c ↔ b ≤ c := by
  simp [From]

/-- What comes after a character comes from the next one on. -/
theorem from_next? {b c : Char} (h : b < c) : From (Scalar.next? b) c := by
  rw [Scalar.lt_iff] at h
  obtain ⟨n, hn⟩ := exists_ordinal_eq h
  exact ⟨n, Scalar.next?_eq_some_iff.2 hn, Scalar.le_iff.2 (by omega)⟩

theorem lt_of_from_next? {b c : Char} (h : From (Scalar.next? b) c) : b < c := by
  obtain ⟨n, hn, hle⟩ := h
  rw [Scalar.next?_eq_some_iff] at hn
  rw [Scalar.le_iff] at hle
  rw [Scalar.lt_iff]
  omega

@[simp] theorem from_least (c : Char) : From (some Scalar.least) c :=
  from_some.2 (Scalar.least_le c)

@[simp] theorem mem_upFrom {b c : Char} : c ∈ IntervalSet.upFrom b ↔ b ≤ c :=
  ⟨fun h => h.1, fun h => ⟨h, Scalar.le_greatest c⟩⟩

/-! ## Values on ascending intervals -/

variable {α : Type u}

/-- The value of the first interval that holds a character. -/
def valueAt? (entries : List (Interval × α)) (c : Char) : Option α :=
  (entries.find? fun e => decide (c ∈ e.1)).map (·.2)

theorem valueAt?_cons (e : Interval × α) (entries : List (Interval × α)) (c : Char) :
    valueAt? (e :: entries) c = if c ∈ e.1 then some e.2 else valueAt? entries c := by
  by_cases hc : c ∈ e.1
  · simp [valueAt?, hc]
  · simp [valueAt?, hc]

theorem exists_mem_of_valueAt? {entries : List (Interval × α)} {c : Char} {v : α}
    (h : valueAt? entries c = some v) : ∃ i, (i, v) ∈ entries ∧ c ∈ i := by
  obtain ⟨e, he, rfl⟩ := Option.map_eq_some_iff.1 h
  exact ⟨e.1, List.mem_of_find?_eq_some he, by simpa using List.find?_some he⟩

theorem valueAt?_eq_none_iff {entries : List (Interval × α)} {c : Char} :
    valueAt? entries c = none ↔ ∀ e ∈ entries, c ∉ e.1 := by
  simp [valueAt?]

/-- In an ascending list an interval determines the values of its characters. -/
theorem valueAt?_of_mem {entries : List (Interval × α)} {c : Char} {i : Interval} {v : α}
    (h : Ascending (entries.map (·.1))) (hi : (i, v) ∈ entries) (hc : c ∈ i) :
    valueAt? entries c = some v := by
  induction entries with
  | nil => simp at hi
  | cons e entries ih =>
      simp only [Ascending, List.map_cons, List.pairwise_cons] at h
      rw [valueAt?_cons]
      rcases List.mem_cons.1 hi with rfl | hmem
      · rw [if_pos hc]
      · have hbefore := h.1 i (List.mem_map.2 ⟨(i, v), hmem, rfl⟩)
        rw [if_neg (hbefore.not_mem_left hc)]
        exact ih h.2 hmem

/-- In an ascending list the intervals are searched in any order. -/
theorem valueAt?_eq_some_iff {entries : List (Interval × α)} {c : Char} {v : α}
    (h : Ascending (entries.map (·.1))) :
    valueAt? entries c = some v ↔ ∃ i, (i, v) ∈ entries ∧ c ∈ i := by
  constructor
  · exact exists_mem_of_valueAt?
  · rintro ⟨i, hi, hc⟩
    exact valueAt?_of_mem h hi hc

theorem valueAt?_map {β : Type v} (f : α → β) (entries : List (Interval × α)) (c : Char) :
    valueAt? (entries.map fun e => (e.1, f e.2)) c = (valueAt? entries c).map f := by
  induction entries with
  | nil => rfl
  | cons e entries ih =>
      rw [List.map_cons, valueAt?_cons, valueAt?_cons, ih]
      split <;> rfl

end PatternAutomata.Interval
