import Mathlib.Data.List.Sort
import PatternAutomata.Proofs.IntervalMaps

/-!
# Where the intervals of a map begin and end

Maps with the same value at each character need not be equal, since intervals that touch may
have the same value. What a map says beyond its values is where it is cut: the ordinals at
which an interval begins, or before which one ends. A map in order is determined by its
values and its cuts.

An insertion keeps all cuts and adds the two of the key, however the pieces come about. So
insertions that commute on values commute as operations on maps.

## Main results

* `isCut_insert`: the cuts after an insertion.
* `eq_of_isCut_iff`: a map in order is determined by its values and its cuts.
* `insert_right_comm`, `insert_insert_self`: insertions in another order and repeated.
-/

namespace PatternAutomata

open PatternAutomata.Interval

/-! ## The ends of what is cut off -/

namespace Interval

variable {i k : Interval} {c : Char} {n : Nat}

/-- The interval begins with the number or ends before it. -/
def Cut (i : Interval) (n : Nat) : Prop := n = i.bottom ∨ n = i.top + 1

theorem ends_below? (h : k ∈ i.below? c) :
    k.bottom = i.bottom ∧ k.top + 1 = min (i.top + 1) c.ordinal.val := by
  obtain ⟨p, hp, hk⟩ := Option.bind_eq_some_iff.1 (show i.below? c = some k from h)
  obtain ⟨hlo, hhi⟩ := ofBounds?_eq_some_iff.1 hk
  have hprevious := Scalar.previous?_eq_some_iff.1 hp
  have hbottom : k.bottom = i.bottom := by
    rw [bottom, hlo, bottom]
  have htop : k.top = min i.top p.ordinal.val := by
    rw [top, hhi, top, lesser]
    split
    · next hle =>
      rw [Scalar.le_iff] at hle
      omega
    · next hle =>
      rw [Scalar.le_iff] at hle
      omega
  omega

theorem ends_above? (h : k ∈ i.above? c) :
    k.bottom = max i.bottom (c.ordinal.val + 1) ∧ k.top = i.top := by
  obtain ⟨s, hs, hk⟩ := Option.bind_eq_some_iff.1 (show i.above? c = some k from h)
  obtain ⟨hlo, hhi⟩ := ofBounds?_eq_some_iff.1 hk
  have hnext := Scalar.next?_eq_some_iff.1 hs
  have htop : k.top = i.top := by
    rw [top, hhi, top]
  have hbottom : k.bottom = max i.bottom s.ordinal.val := by
    rw [bottom, hlo, bottom, greater]
    split
    · next hle =>
      rw [Scalar.le_iff] at hle
      omega
    · next hle =>
      rw [Scalar.le_iff] at hle
      omega
  omega

end Interval

namespace IntervalMap

variable {α : Type u}

/-- Some entry begins with the number or ends before it. -/
def IsCut (entries : List (Interval × α)) (n : Nat) : Prop := ∃ e ∈ entries, e.1.Cut n

variable {m m' : IntervalMap α} {entries xs ys : List (Interval × α)} {i rest common : Interval}
  {c : Char} {value : α} {n : Nat}

@[simp] theorem isCut_cons {e : Interval × α} :
    IsCut (e :: entries) n ↔ e.1.Cut n ∨ IsCut entries n := by
  simp only [IsCut, List.mem_cons, exists_eq_or_imp]

@[simp] theorem isCut_append : IsCut (xs ++ ys) n ↔ IsCut xs n ∨ IsCut ys n := by
  simp only [IsCut, List.mem_append, or_and_right, exists_or]

@[simp] theorem not_isCut_nil : ¬ IsCut ([] : List (Interval × α)) n := by
  simp [IsCut]

@[simp] theorem isCut_piece_some : IsCut (piece (some i) value) n ↔ i.Cut n := by
  show IsCut [(i, value)] n ↔ _
  rw [isCut_cons]
  exact or_iff_left not_isCut_nil

theorem isCut_piece_below : IsCut (piece (i.below? c) value) n ↔
    i.bottom < c.ordinal.val ∧ (n = i.bottom ∨ n = min (i.top + 1) c.ordinal.val) := by
  have hsome : (∃ k, k ∈ i.below? c) ↔ i.bottom < c.ordinal.val := by
    constructor
    · intro h
      obtain ⟨k, hk⟩ := h
      have hends := ends_below? hk
      have hle := k.bottom_le_top
      omega
    · intro h
      obtain ⟨k, hk, -⟩ := mem_below?.2 ⟨i.lo_mem, Scalar.lt_iff.2 h⟩
      exact ⟨k, hk⟩
  rw [← hsome]
  cases hpart : i.below? c with
  | none => simp [piece]
  | some k =>
    have hends := ends_below? hpart
    rw [isCut_piece_some, Cut, hends.1, hends.2]
    simp

theorem isCut_piece_above : IsCut (piece (i.above? c) value) n ↔
    c.ordinal.val < i.top ∧ (n = max i.bottom (c.ordinal.val + 1) ∨ n = i.top + 1) := by
  have hsome : (∃ k, k ∈ i.above? c) ↔ c.ordinal.val < i.top := by
    constructor
    · intro h
      obtain ⟨k, hk⟩ := h
      have hends := ends_above? hk
      have hle := k.bottom_le_top
      omega
    · intro h
      obtain ⟨k, hk, -⟩ := mem_above?.2 ⟨i.hi_mem, Scalar.lt_iff.2 h⟩
      exact ⟨k, hk⟩
  rw [← hsome]
  cases hpart : i.above? c with
  | none => simp [piece]
  | some k =>
    have hends := ends_above? hpart
    rw [isCut_piece_some, Cut, hends.1, hends.2]
    simp

/-! ## The cuts after an insertion -/

/-- The pieces below the common part begin where the entry and the rest of the key do. -/
theorem isCut_lower_pieces (old value : α) (h : i.inter? rest = some common) :
    (IsCut (piece (i.below? rest.lo) old) n ∨ IsCut (piece (rest.below? i.lo) value) n) ∨
      n = common.bottom ↔ n = i.bottom ∨ n = rest.bottom := by
  have hends := inter?_eq_some_iff.1 h
  have hc := common.bottom_le_top
  rw [isCut_piece_below, isCut_piece_below]
  show (i.bottom < rest.bottom ∧ (_ ∨ n = min _ rest.bottom) ∨
    rest.bottom < i.bottom ∧ (_ ∨ n = min _ i.bottom)) ∨ _ ↔ _
  omega

/-- The pieces above the common part end where the entry and the rest of the key do. -/
theorem isCut_upper_pieces (old value : α) (h : i.inter? rest = some common) :
    n = common.top + 1 ∨ IsCut (piece (i.above? common.hi) old) n ∨
      IsCut (piece (rest.above? common.hi) value) n ↔ n = i.top + 1 ∨ n = rest.top + 1 := by
  have hends := inter?_eq_some_iff.1 h
  have hc := common.bottom_le_top
  rw [isCut_piece_above, isCut_piece_above]
  show _ ∨ common.top < i.top ∧ (n = max _ (common.top + 1) ∨ _) ∨
    common.top < rest.top ∧ (n = max _ (common.top + 1) ∨ _) ↔ _
  omega

/-- The pieces of an entry and of the rest of the key have the cuts of the two. -/
theorem isCut_pieces (old value : α) (h : i.inter? rest = some common) :
    (IsCut (piece (i.below? rest.lo) old) n ∨ IsCut (piece (rest.below? i.lo) value) n) ∨
      common.Cut n ∨ IsCut (piece (i.above? common.hi) old) n ∨
        IsCut (piece (rest.above? common.hi) value) n ↔ i.Cut n ∨ rest.Cut n := by
  rw [Cut, or_assoc (a := n = common.bottom), ← or_assoc (b := n = common.bottom),
    isCut_lower_pieces old value h, isCut_upper_pieces old value h, Cut, Cut]
  exact or_or_or_comm

theorem isCut_overlay (f : α → α → α) (value : α)
    (hasc : Ascending (entries.map (·.1))) (rest : Option Interval)
    (hmeet : ∀ e ∈ entries, ∃ r ∈ rest, e.1.Meets r) :
    IsCut (overlay f value rest entries) n ↔ IsCut entries n ∨ IsCut (piece rest value) n := by
  refine meeting_induction (fun rest => ?_)
    (fun {i r common old entries} hcommon _ _ _ htail => ?_) hasc rest hmeet
  · cases rest with
    | none =>
      rw [overlay_none]
      simp [piece]
    | some r =>
      rw [overlay_nil]
      simp [piece]
  · have hpieces := isCut_pieces (n := n) old value hcommon
    rw [overlay_cons f value hcommon, isCut_append, isCut_append, isCut_cons, isCut_append,
      htail, isCut_cons, isCut_piece_some, or_right_comm (a := i.Cut n), ← hpieces]
    simp only [or_assoc, or_comm, or_left_comm]

/-- An insertion keeps the cuts and adds those of the key. -/
theorem isCut_insert (f : α → α → α) (h : m.Ordered) (key : Interval) (value : α) :
    IsCut (m.insert f key value).entries n ↔ IsCut m.entries n ∨ key.Cut n := by
  obtain ⟨pre, mid, post, hm, hins, -, hmid, -⟩ := insert_split f h key value
  have hoverlay := isCut_overlay (n := n) f value (h.middle hm) (some key) fun e he =>
    ⟨key, rfl, hmid e he⟩
  rw [hins, hm, isCut_append, isCut_append, hoverlay, isCut_append, isCut_append,
    isCut_piece_some]
  simp only [or_assoc, or_comm, or_left_comm]

/-! ## Maps with the same values and cuts -/

/-- In a map in order no interval is cut within an entry. -/
theorem not_isCut_within {v : α} (h : m.Ordered) (hi : (i, v) ∈ m.entries)
    (hcut : IsCut m.entries n) : n ≤ i.bottom ∨ i.top < n := by
  obtain ⟨⟨j, w⟩, hj, hn⟩ := hcut
  have hn' : n = j.bottom ∨ n = j.top + 1 := hn
  have hle := j.bottom_le_top
  have hplaces : j = i ∨ j.Before i ∨ i.Before j :=
    List.Pairwise.forall_of_forall_of_flip
      (R := fun j i : Interval => j = i ∨ j.Before i ∨ i.Before j)
      (fun _ _ => .inl rfl) (h.imp fun hbefore => .inr (.inl hbefore))
      (h.imp fun hbefore => .inr (.inr hbefore))
      (List.mem_map.2 ⟨(j, w), hj, rfl⟩) (List.mem_map.2 ⟨(i, v), hi, rfl⟩)
  rcases hplaces with rfl | hbefore | hafter
  · omega
  · rw [before_iff] at hbefore
    omega
  · rw [before_iff] at hafter
    omega

theorem mem_entries_of_isCut_iff {v : α} (h : m.Ordered) (h' : m'.Ordered)
    (hfind : ∀ c, m.find? c = m'.find? c)
    (hcut : ∀ n, IsCut m.entries n ↔ IsCut m'.entries n) (hi : (i, v) ∈ m.entries) :
    (i, v) ∈ m'.entries := by
  have hvalue : m'.find? i.lo = some v := by
    rw [← hfind, find?_eq_some_iff h]
    exact ⟨i, hi, i.lo_mem⟩
  obtain ⟨j, hj, hlo⟩ := (find?_eq_some_iff h').1 hvalue
  have hmem : j.bottom ≤ i.bottom ∧ i.bottom ≤ j.top := mem_iff.1 hlo
  have hle := i.bottom_le_top
  have hwithin : ∀ n, j.Cut n → n ≤ i.bottom ∨ i.top < n := fun n hn =>
    not_isCut_within h hi ((hcut n).2 ⟨(j, v), hj, hn⟩)
  have hwithin' : ∀ n, i.Cut n → n ≤ j.bottom ∨ j.top < n := fun n hn =>
    not_isCut_within h' hj ((hcut n).1 ⟨(i, v), hi, hn⟩)
  have hbottom := hwithin' i.bottom (.inl rfl)
  have htop := hwithin (j.top + 1) (.inr rfl)
  have htop' := hwithin' (i.top + 1) (.inr rfl)
  obtain rfl : i = j := eq_of_ends (by omega) (by omega)
  exact hj

/-- A map in order is determined by its values and its cuts. -/
theorem eq_of_isCut_iff (h : m.Ordered) (h' : m'.Ordered)
    (hfind : ∀ c, m.find? c = m'.find? c)
    (hcut : ∀ n, IsCut m.entries n ↔ IsCut m'.entries n) : m = m' := by
  have hentries : m.entries = m'.entries := by
    have hirrefl : Std.Irrefl fun e e' : Interval × α => e.1.Before e'.1 := ⟨fun e he => by
      have hle := e.1.bottom_le_top
      rw [before_iff] at he
      omega⟩
    have hantisymm : Std.Antisymm fun e e' : Interval × α => e.1.Before e'.1 :=
      ⟨fun e e' he he' => by
        have hle := e.1.bottom_le_top
        have hle' := e'.1.bottom_le_top
        rw [before_iff] at he he'
        omega⟩
    refine List.Pairwise.eq_of_mem_iff (List.pairwise_map.1 h) (List.pairwise_map.1 h')
      fun e => ⟨fun he => ?_, fun he => ?_⟩
    · exact mem_entries_of_isCut_iff h h' hfind hcut he
    · exact mem_entries_of_isCut_iff h' h (fun c => (hfind c).symm) (fun n => (hcut n).symm) he
  cases m
  cases m'
  exact congrArg mk hentries

/-! ## Insertions in another order -/

variable {f : α → α → α}

/-- If it does not matter in which order two values are united with others, neither does the
order of insertions. -/
theorem insert_right_comm (hcomm : ∀ v w, f v w = f w v)
    (hright : ∀ old v w, f (f old v) w = f (f old w) v) (h : m.Ordered)
    (key key' : Interval) (v w : α) :
    (m.insert f key v).insert f key' w = (m.insert f key' w).insert f key v := by
  have hfirst := ordered_insert f h key v
  have hfirst' := ordered_insert f h key' w
  refine eq_of_isCut_iff (ordered_insert f hfirst key' w) (ordered_insert f hfirst' key v)
    (fun c => ?_) fun n => ?_
  · rw [find?_insert f hfirst, find?_insert f h, find?_insert f hfirst', find?_insert f h]
    by_cases hc : c ∈ key
    · by_cases hc' : c ∈ key'
      · simp only [if_pos hc, if_pos hc']
        cases m.find? c with
        | none => exact congrArg some (hcomm v w)
        | some old => exact congrArg some (hright old v w)
      · simp only [if_pos hc, if_neg hc']
    · by_cases hc' : c ∈ key'
      · simp only [if_neg hc, if_pos hc']
      · simp only [if_neg hc, if_neg hc']
  · rw [isCut_insert f hfirst, isCut_insert f h, isCut_insert f hfirst', isCut_insert f h]
    exact or_right_comm

/-- Inserting the same once more changes nothing, if uniting with it once more does not. -/
theorem insert_insert_self (hself : ∀ v, f v v = v) (hright : ∀ old v, f (f old v) v = f old v)
    (h : m.Ordered) (key : Interval) (v : α) :
    (m.insert f key v).insert f key v = m.insert f key v := by
  have hfirst := ordered_insert f h key v
  refine eq_of_isCut_iff (ordered_insert f hfirst key v) hfirst (fun c => ?_) fun n => ?_
  · rw [find?_insert f hfirst, find?_insert f h]
    by_cases hc : c ∈ key
    · rw [if_pos hc, if_pos hc]
      cases m.find? c with
      | none => exact congrArg some (hself v)
      | some old => exact congrArg some (hright old v)
    · rw [if_neg hc, if_neg hc]
  · rw [isCut_insert f hfirst, isCut_insert f h, or_assoc, or_self]

end IntervalMap

end PatternAutomata
