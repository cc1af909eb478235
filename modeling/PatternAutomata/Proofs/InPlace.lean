import PatternAutomata.Checked.InPlace
import PatternAutomata.Proofs.Representation

/-!
# What adding a transition changes

The place of a new transition divides an ordered row: the entries before it end below the
new interval, and the one after it either meets the interval, and then nothing has been
changed yet, or begins above it. In the second case the interval is joined with the first
entry above, then with the last one below, and no index is out of range.

Joining touching entries with one target only cuts a row in other pieces (`Recut`), so the
new row leads where the old one led and to the new target on the new interval. This needs
the row to be in order and no more. If its neighbours were joined where they can be, they
are so again, since the entries beside the place are the only ones with a new neighbour.

## Main results

* `Row.search?_eq`: the search in a row finds what the row leads to.
* `Row.add_eq`, `Row.add_refused`: what the calls leave behind.
* `Dfa.addTransition_exact`: what a transition that is added, or refused, leaves behind.
-/

namespace PatternAutomata

open PatternAutomata.Interval

/-! ## Calls one after the other -/

namespace Editing

variable {σ α β : Type} {x : Editing σ α} {f : α → Editing σ β} {before after : σ}

theorem outcome_bind_pure {a : α} (h : x.outcome before = (pure a, after)) :
    (x >>= f).outcome before = (f a).outcome after := by
  have hrun : x.run.run before = (.ok a, after) := h
  rw [outcome, ExceptT.run_bind, StateT.run_bind, hrun]
  rfl

theorem outcome_bind_throw {e : Fault} (h : x.outcome before = (throw e, after)) :
    (x >>= f).outcome before = (throw e, after) := by
  have hrun : x.run.run before = (.error e, after) := h
  rw [outcome, ExceptT.run_bind, StateT.run_bind, hrun]
  rfl

@[simp] theorem outcome_get_bind (f : σ → Editing σ β) :
    (get >>= f).outcome before = (f before).outcome before := rfl

@[simp] theorem outcome_ofChecked_bind (a : α) (f : α → Editing σ β) :
    (ofChecked (pure a) >>= f).outcome before = (f a).outcome before := rfl

end Editing

namespace Row

open Editing

variable {row row' pre post rest : Row} {t u : Transition} {on : Interval} {target : Nat}

/-! ## Searching -/

/-- The search in an ordered row finds the entry that holds the character. -/
theorem search?_eq (h : row.Ordered) (c : Char) : row.search? c = row.step? c := by
  obtain ⟨pre, post, rfl, hplace, hpre, hpost⟩ := exists_split h (.singleton c)
  have hnone : step? pre c = none :=
    step?_eq_none_iff.2 fun u hu => (hpre u hu).not_mem_left (mem_singleton.2 rfl)
  have hsearch : (pre ++ post).search? c =
      (post[0]?.filter fun t => decide (t.on.lo ≤ c)).map (·.target) := by
    rw [search?, show partitionPoint (fun t => decide (t.on.hi < c)) (pre ++ post) = _ from hplace,
      List.getElem?_append_right (Nat.le_refl _), Nat.sub_self]
  rw [hsearch, step?_append, hnone, Option.none_or]
  cases post with
  | nil => rfl
  | cons u post =>
    have hhi : c ≤ u.on.hi := Char.not_lt.1 (hpost u (by simp))
    by_cases hlo : u.on.lo ≤ c
    · rw [step?_cons, if_pos ⟨hlo, hhi⟩]
      simp [hlo]
    · have hbelow : (Interval.singleton c).Before u.on := Char.not_le.1 hlo
      have habove := before_of_head (t := ⟨.singleton c, 0⟩) (ordered_append.1 h).2.1 hbelow
      have hrest : step? (u :: post) c = none :=
        step?_eq_none_iff.2 fun v hv => (habove v hv).not_mem_right (mem_singleton.2 rfl)
      rw [hrest, List.getElem?_cons_zero, Option.filter_some_neg (by simpa using hlo)]
      rfl

/-! ## Rows cut in other pieces -/

/-- The second row is in order and leads where the first one leads. -/
structure Recut (row row' : Row) : Prop where
  ordered : row'.Ordered
  step?_eq : ∀ c, row'.step? c = row.step? c

theorem Recut.refl (h : row.Ordered) : Recut row row := ⟨h, fun _ => rfl⟩

/-- Each entry begins inside one of the other row, for the same target. -/
theorem Recut.exists_mem (h : Recut row row') {v : Transition} (hv : v ∈ row') :
    ∃ u ∈ row, v.on.lo ∈ u.on ∧ u.target = v.target := by
  have hstep := (step?_eq_some_iff h.ordered).2 ⟨v, hv, v.on.lo_mem, rfl⟩
  rw [h.step?_eq] at hstep
  exact exists_mem_of_step? hstep

theorem Recut.before (h : Recut row row') (ht : ∀ u ∈ row, t.on.Before u.on) :
    ∀ v ∈ row', t.on.Before v.on := by
  intro v hv
  obtain ⟨u, hu, hmem, -⟩ := h.exists_mem hv
  have hbefore := before_iff.1 (ht u hu)
  have hlow : u.on.bottom ≤ v.on.bottom := (mem_iff.1 hmem).1
  exact before_iff.2 (Nat.lt_of_lt_of_le hbefore hlow)

theorem ordered_glue (h : Ordered (t :: row)) : (glue t row).Ordered := by
  cases row with
  | nil => exact h
  | cons u row =>
    rw [glue]
    split
    · obtain ⟨ht, hrow⟩ := ordered_cons.1 h
      obtain ⟨hu, htail⟩ := ordered_cons.1 hrow
      refine ordered_cons.2 ⟨fun v hv => ?_, htail⟩
      have htv := before_iff.1 (ht v (List.mem_cons_of_mem u hv))
      have huv := before_iff.1 (hu v hv)
      rw [before_iff, top_hull]
      omega
    · exact h

theorem Recut.cons (h : Recut row row') (hu : Ordered (u :: row)) :
    Recut (u :: row) (u :: row') where
  ordered := ordered_cons.2 ⟨h.before (ordered_cons.1 hu).1, h.ordered⟩
  step?_eq := fun c => by rw [step?_cons, step?_cons, h.step?_eq]

theorem Recut.glue (h : Recut row row') (hu : Ordered (u :: row)) :
    Recut (u :: row) (glue u row') where
  ordered := ordered_glue (h.cons hu).ordered
  step?_eq := fun c => by
    rw [step?_glue (h.before (ordered_cons.1 hu).1), (h.cons hu).step?_eq]

theorem Recut.foldr_glue (h : Recut row row') (hpre : Ordered (pre ++ row)) :
    Recut (pre ++ row) (pre.foldr Row.glue row') := by
  induction pre with
  | nil => exact h
  | cons u pre ih => exact (ih (ordered_cons.1 hpre).2).glue hpre

/-- A row after another one, with the last entry of the one joined with the first of the
other if the two touch and lead to the same state. -/
def hook : Row → Row → Row
  | [], row => row
  | [u], row => glue u row
  | u :: v :: pre, row => u :: hook (v :: pre) row

@[simp] theorem hook_concat (pre : Row) (u : Transition) (row : Row) :
    hook (pre ++ [u]) row = pre ++ glue u row := by
  induction pre with
  | nil => rfl
  | cons v pre ih =>
    cases pre with
    | nil => rfl
    | cons w pre => exact congrArg (v :: ·) ih

theorem Recut.hook (h : Recut row row') (hpre : Ordered (pre ++ row)) :
    Recut (pre ++ row) (hook pre row') := by
  induction pre with
  | nil => exact h
  | cons u pre ih =>
    cases pre with
    | nil => exact h.glue hpre
    | cons v pre => exact (ih (ordered_cons.1 hpre).2).cons hpre

/-- Where the entries are joined already, joining throughout changes no more. -/
theorem hook_eq_foldr (h : pre.Joined) (hrow : ∀ u ∈ pre, ∀ v ∈ row, u.on.Before v.on) :
    hook pre row = pre.foldr glue row := by
  rcases List.eq_nil_or_concat pre with rfl | ⟨pre, u, rfl⟩
  · rfl
  · simp only [List.concat_eq_append] at h hrow ⊢
    rw [hook_concat, List.foldr_append, List.foldr_cons, List.foldr_nil,
      foldr_glue_glue h (hrow u (by simp))]

/-! ## The place of a transition -/

/-- The entries below an interval, and those above it unless the first of them meets it. -/
theorem place_cases (h : row.Ordered) (on : Interval) :
    ∃ pre post, row = pre ++ post ∧
      partitionPoint (fun t => decide (t.on.hi < on.lo)) row = pre.length ∧
      (∀ u ∈ pre, u.on.Before on) ∧
      ((∀ u ∈ post, on.Before u.on) ∨ ∃ u rest, post = u :: rest ∧ u.on.Meets on) := by
  obtain ⟨pre, post, rfl, hplace, hpre, hpost⟩ := exists_split h on
  refine ⟨pre, post, rfl, hplace, hpre, ?_⟩
  cases post with
  | nil => exact .inl fun u hu => absurd hu List.not_mem_nil
  | cons u rest =>
    by_cases hu : on.Before u.on
    · exact .inl (before_of_head (t := ⟨on, 0⟩) (ordered_append.1 h).2.1 hu)
    · refine .inr ⟨u, rest, rfl, ?_⟩
      have hlow := hpost u (by simp)
      rw [before_iff] at hu hlow
      rw [meets_iff]
      omega

/-! ## Single entries -/

@[simp] theorem look_eq (pre : Row) (u : Transition) (post : Row) :
    (look pre.length).outcome (pre ++ u :: post) = (pure u, pre ++ u :: post) := by
  have hentry : Checked.entry (pre ++ u :: post) pre.length = pure u :=
    Checked.entry_eq (by simp)
  rw [look, outcome_get_bind, hentry]
  rfl

@[simp] theorem takeOut_eq (pre : Row) (u : Transition) (post : Row) :
    (takeOut pre.length).outcome (pre ++ u :: post) = (pure (), pre ++ post) := by
  have hlt : pre.length < (pre ++ u :: post).length := by simp
  have herase : (pre ++ u :: post).eraseIdx pre.length = pre ++ post := by
    rw [List.eraseIdx_append_of_length_le (Nat.le_refl _), Nat.sub_self, List.eraseIdx_cons_zero]
  rw [takeOut, outcome_get_bind, if_pos hlt, herase]
  rfl

@[simp] theorem putIn_eq (pre post : Row) (t : Transition) :
    (putIn pre.length t).outcome (pre ++ post) = (pure (), pre ++ t :: post) := by
  have hle : pre.length ≤ (pre ++ post).length := by simp
  rw [putIn, outcome_get_bind, if_pos hle, insertIdx_length_append]
  rfl

/-! ## A new entry -/

theorem leaveRoom_eq (pre : Row) (hpost : ∀ u ∈ post, on.Before u.on) :
    (leaveRoom on pre.length).outcome (pre ++ post) = (pure (), pre ++ post) := by
  rw [leaveRoom, outcome_get_bind]
  cases post with
  | nil =>
    rw [if_neg (by simp)]
    rfl
  | cons u post =>
    rw [if_pos (by simp), outcome_bind_pure (look_eq pre u post),
      if_pos (show on.hi < u.on.lo from hpost u (by simp))]
    rfl

theorem leaveRoom_meets (pre post : Row) (hu : u.on.Meets on) :
    (leaveRoom on pre.length).outcome (pre ++ u :: post) =
      (throw (.misuse .overlappingTransitions), pre ++ u :: post) := by
  have hnot : ¬ on.hi < u.on.lo := fun hbefore =>
    Before.not_meets (show on.Before u.on from hbefore) (meets_comm.1 hu)
  rw [leaveRoom, outcome_get_bind, if_pos (by simp), outcome_bind_pure (look_eq pre u post),
    if_neg hnot]
  rfl

/-- Joining with the entry above the place is putting the transition in front. -/
theorem joinNext_eq (pre : Row) (target : Nat) (hpost : ∀ u ∈ post, on.Before u.on) :
    ∃ upper rest, (joinNext on target pre.length).outcome (pre ++ post) =
        (pure upper, pre ++ rest) ∧
      upper.lo = on.lo ∧ glue ⟨on, target⟩ post = ⟨upper, target⟩ :: rest := by
  cases post with
  | nil =>
    refine ⟨on, [], ?_, rfl, rfl⟩
    rw [joinNext, outcome_get_bind, if_neg (by simp)]
    rfl
  | cons u post =>
    have hlook : ∀ f : Transition → Editing Row Interval,
        (do
          if pre.length < (pre ++ u :: post).length then do f (← look pre.length)
          else pure on : Editing Row Interval).outcome (pre ++ u :: post) =
          (f u).outcome (pre ++ u :: post) := fun f => by
      rw [if_pos (by simp), outcome_bind_pure (look_eq pre u post)]
    rw [glue]
    by_cases hjoin : u.target = target ∧ on.Touches u.on
    · obtain ⟨hlo, hhi⟩ := ends_hull (hpost u List.mem_cons_self)
      refine ⟨on.hull u.on, post, ?_, hlo, if_pos ⟨hjoin.1.symm, hjoin.2⟩⟩
      rw [joinNext, outcome_get_bind, hlook, if_pos hjoin,
        outcome_bind_pure (takeOut_eq pre u post), Checked.ofBounds_eq hlo hhi]
      rfl
    · refine ⟨on, u :: post, ?_, rfl, if_neg fun h => hjoin ⟨h.1.symm, h.2⟩⟩
      rw [joinNext, outcome_get_bind, hlook, if_neg hjoin]
      rfl

/-- Joining with the entry below the place is putting that entry in front. -/
theorem joinPrevious_eq (rest : Row) (target : Nat) (hpre : ∀ u ∈ pre, u.on.Before on) :
    ∃ whole init, (joinPrevious on target pre.length).outcome (pre ++ rest) =
        (pure (whole, init.length), init ++ rest) ∧
      hook pre (⟨on, target⟩ :: rest) = init ++ ⟨whole, target⟩ :: rest := by
  rcases List.eq_nil_or_concat pre with rfl | ⟨pre, u, rfl⟩
  · exact ⟨on, [], rfl, rfl⟩
  · have hu : u.on.Before on := hpre u (by simp)
    have hlast : (pre.concat u).length - 1 = pre.length := by simp
    have happend : pre.concat u ++ rest = pre ++ u :: rest := by simp
    rw [joinPrevious, if_neg (by simp), hlast, happend, outcome_bind_pure (look_eq pre u rest),
      List.concat_eq_append, hook_concat, glue]
    by_cases hjoin : u.target = target ∧ on.Touches u.on
    · obtain ⟨hlo, hhi⟩ := ends_hull hu
      refine ⟨u.on.hull on, pre, ?_, ?_⟩
      · rw [if_pos hjoin, outcome_bind_pure (takeOut_eq pre u rest), Checked.ofBounds_eq hlo hhi,
          outcome_ofChecked_bind]
        rfl
      · rw [if_pos ⟨hjoin.1, touches_comm.1 hjoin.2⟩, hjoin.1]
    · refine ⟨on, pre ++ [u], ?_, ?_⟩
      · rw [if_neg hjoin, ← happend, List.concat_eq_append]
        rfl
      · rw [if_neg fun h => hjoin ⟨h.1, touches_comm.1 h.2⟩, List.append_cons]

/-- A transition that the row has room for is put at its place and joined with the entries
beside it. -/
theorem add_eq (hpre : ∀ u ∈ pre, u.on.Before on)
    (hpost : ∀ u ∈ post, on.Before u.on)
    (hplace : partitionPoint (fun t => decide (t.on.hi < on.lo)) (pre ++ post) = pre.length)
    (target : Nat) :
    (add on target).outcome (pre ++ post) = (pure (), hook pre (glue ⟨on, target⟩ post)) := by
  obtain ⟨upper, rest, hnext, hlo, hglue⟩ := joinNext_eq pre target hpost
  have hupper : ∀ u ∈ pre, u.on.Before upper := fun u hu => by
    rw [Before, hlo]
    exact hpre u hu
  obtain ⟨whole, init, hprevious, hhook⟩ := joinPrevious_eq rest target hupper
  rw [add, outcome_get_bind, hplace, outcome_bind_pure (leaveRoom_eq pre hpost),
    outcome_bind_pure hnext, outcome_bind_pure hprevious, hglue, hhook]
  exact putIn_eq init rest ⟨whole, target⟩

theorem add_meets (pre post : Row) (hu : u.on.Meets on)
    (hplace : partitionPoint (fun t => decide (t.on.hi < on.lo)) (pre ++ u :: post) = pre.length)
    (target : Nat) : (add on target).outcome (pre ++ u :: post) =
      (throw (.misuse .overlappingTransitions), pre ++ u :: post) := by
  rw [add, outcome_get_bind, hplace, outcome_bind_throw (leaveRoom_meets pre post hu)]

/-! ## What is added -/

/-- The second row is the first one with a transition added, whatever pieces it is cut in. -/
structure Adds (row : Row) (t : Transition) (row' : Row) : Prop where
  ordered : row'.Ordered
  step?_eq : ∀ c, row'.step? c = if c ∈ t.on then some t.target else row.step? c
  joined : row.Joined → row'.Joined

/-- No entry of the new row leads to a state that neither the transition nor the old row
leads to. -/
theorem Adds.target_mem (h : Adds row t row') {v : Transition} (hv : v ∈ row') :
    ∃ u ∈ t :: row, u.target = v.target := by
  have hstep := (step?_eq_some_iff h.ordered).2 ⟨v, hv, v.on.lo_mem, rfl⟩
  rw [h.step?_eq] at hstep
  split at hstep
  · exact ⟨t, List.mem_cons_self, Option.some.inj hstep⟩
  · obtain ⟨u, hu, -, htarget⟩ := exists_mem_of_step? hstep
    exact ⟨u, List.mem_cons_of_mem t hu, htarget⟩

/-- A row with a new transition at its place, joined with the entries beside it, and the
same row joined throughout. -/
theorem adds_hook (h : Ordered (pre ++ post)) (hpre : ∀ u ∈ pre, u.on.Before t.on)
    (hpost : ∀ u ∈ post, t.on.Before u.on) :
    Adds (pre ++ post) t (hook pre (glue t post)) ∧
      Adds (pre ++ post) t (pre.foldr glue (glue t post)) ∧
      (Joined (pre ++ post) → hook pre (glue t post) = pre.foldr glue (glue t post)) := by
  have hwhole : Ordered (pre ++ t :: post) := ordered_insertion h hpre hpost
  have hglue : Recut (t :: post) (glue t post) :=
    (Recut.refl (ordered_append.1 h).2.1).glue (ordered_append.1 hwhole).2.1
  have hhook := hglue.hook hwhole
  have hfold := hglue.foldr_glue hwhole
  have habove : ∀ u ∈ pre, ∀ v ∈ glue t post, u.on.Before v.on := fun u hu =>
    hglue.before ((ordered_append.1 hwhole).2.2 u hu)
  have heq : Joined (pre ++ post) → hook pre (glue t post) = pre.foldr glue (glue t post) :=
    fun hjoined => hook_eq_foldr (List.pairwise_append.1 hjoined).1 habove
  have hjoin : Joined (pre ++ post) → Joined (pre.foldr glue (glue t post)) := fun hjoined => by
    rw [foldr_glue_eq (joined_append_right hjoined)]
    exact joined_coalesce hwhole
  refine ⟨⟨hhook.ordered, fun c => ?_, fun hjoined => ?_⟩,
    ⟨hfold.ordered, fun c => ?_, hjoin⟩, heq⟩
  · rw [hhook.step?_eq, step?_insertion hpre]
  · rw [heq hjoined]
    exact hjoin hjoined
  · rw [hfold.step?_eq, step?_insertion hpre]

/-- A transition is refused if an entry meets it, and then the row is what it was. -/
theorem add_refused (h : row.Ordered) (hmeets : ∃ u ∈ row, u.on.Meets on) (target : Nat) :
    (add on target).outcome row = (throw (.misuse .overlappingTransitions), row) ∧
      insert? ⟨on, target⟩ row = none := by
  obtain ⟨pre, post, rfl, hplace, hpre, hpost | ⟨u, rest, rfl, hu⟩⟩ := place_cases h on
  · obtain ⟨u, hu, hmeets⟩ := hmeets
    exact absurd hmeets (not_meets_of_split (t := ⟨on, target⟩) hpre hpost u hu)
  · refine ⟨add_meets pre rest hu hplace target, ?_⟩
    rw [insert?_append hpre, insert?_meets hu, Option.map_none]

/-- A transition that no entry meets is added, in place and by insertion. -/
theorem add_accepted (h : row.Ordered) (hclear : ¬ ∃ u ∈ row, u.on.Meets on) (target : Nat) :
    ∃ row', (add on target).outcome row = (pure (), row') ∧ Adds row ⟨on, target⟩ row' ∧
      ∃ row'', insert? ⟨on, target⟩ row = some row'' ∧ Adds row ⟨on, target⟩ row'' ∧
        (row.Joined → row'' = row') := by
  obtain ⟨pre, post, rfl, hplace, hpre, hpost | ⟨u, rest, rfl, hu⟩⟩ := place_cases h on
  · obtain ⟨hhook, hfold, heq⟩ := adds_hook (t := ⟨on, target⟩) h hpre hpost
    refine ⟨_, add_eq hpre hpost hplace target, hhook, _, ?_, hfold, fun hjoined =>
      (heq hjoined).symm⟩
    rw [insert?_append hpre, insert?_above hpost, Option.map_some]
  · exact absurd ⟨u, by simp, hu⟩ hclear

end Row

/-! ## The tables of an automaton -/

namespace Dfa

variable {d e : Dfa} {s t : Nat} {row : Row} {on : Interval}

theorem WellFormed.search?_row (h : d.WellFormed) (s : Nat) (c : Char) :
    (d.row s).search? c = d.step? s c := Row.search?_eq (h.ordered_row s) c

/-- A change of a row of well-formed tables is a change of the row of the automaton. -/
theorem inRow_tables (hs : s < d.size) {x : Editing Row Unit} {result : Checked Unit}
    (hx : x.outcome (d.row s) = (result, row)) :
    (Tables.inRow s x).outcome d.tables = (result, (d.setRow s row).tables) := by
  have hrow : d.tables.rowAt s = pure (d.row s) :=
    (Tables.rowAt_tables d s).trans (Checked.rowAt_eq hs)
  have hedit : (Tables.inRow s x).outcome d.tables =
      (result, { d.tables with rows := d.tables.rows.set s row }) := by
    rw [Tables.inRow, Editing.outcome_get_bind, hrow, Editing.outcome_ofChecked_bind, hx]
    rfl
  rw [hedit, Tables.tables_setRow]

/-- The second automaton is the first one with a transition added to a state. -/
structure Adds (d : Dfa) (s : Nat) (on : Interval) (t : Nat) (e : Dfa) : Prop where
  wellFormed : e.WellFormed
  start_eq : e.start = d.start
  size_eq : e.size = d.size
  isAccepting_eq : ∀ r, e.isAccepting r = d.isAccepting r
  row_eq : ∀ r, r ≠ s → e.row r = d.row r
  step?_eq : ∀ c, e.step? s c = if c ∈ on then some t else d.step? s c
  search?_eq : ∀ r c, (e.row r).search? c = e.step? r c
  joined : ∀ r, (d.row r).Joined → (e.row r).Joined

/-- The row of a state with a transition added makes an automaton with it added. -/
theorem adds_setRow (h : d.WellFormed) (hs : s < d.size) (ht : t < d.size)
    (hrow : (d.row s).Adds ⟨on, t⟩ row) : d.Adds s on t (d.setRow s row) := by
  have hhere : (d.setRow s row).row s = row := row_setRow d hs row
  have hthere : ∀ r, r ≠ s → (d.setRow s row).row r = d.row r := fun r hr =>
    row_setRow_of_ne d row hr.symm
  have hwell : (d.setRow s row).WellFormed := by
    refine .of_rows ?_ fun r _ => ?_
    · rw [size_setRow]
      exact h.start_lt
    rw [size_setRow]
    rcases eq_or_ne r s with rfl | hr
    · rw [hhere]
      refine ⟨hrow.ordered, fun v hv => ?_⟩
      obtain ⟨u, hu, htarget⟩ := hrow.target_mem hv
      rw [← htarget]
      rcases List.mem_cons.1 hu with rfl | hu
      · exact ht
      · exact h.target_lt_row hu
    · rw [hthere r hr]
      exact ⟨h.ordered_row r, fun u hu => h.target_lt_row hu⟩
  refine ⟨hwell, rfl, size_setRow d s row, isAccepting_setRow d s row, hthere, fun c => ?_,
    hwell.search?_row, fun r hr => ?_⟩
  · rw [step?, hhere]
    exact hrow.step?_eq c
  · rcases eq_or_ne r s with rfl | hne
    · rw [hhere]
      exact hrow.joined hr
    · rw [hthere r hne]
      exact hr

/-- A call that adds a transition fails exactly if the state has one on some of its
characters, and then nothing has changed. Otherwise exactly this transition is added. The
insertion into the list of states comes to the same, and to equal rows where neighbours
were joined. -/
theorem addTransition_exact (h : d.WellFormed) (hs : s < d.size) (ht : t < d.size)
    (on : Interval) :
    ((∃ u ∈ d.row s, u.on.Meets on) →
      (Tables.addTransition s on t).outcome d.tables =
          (throw (.misuse .overlappingTransitions), d.tables) ∧
        d.addTransition s on t = .error .overlappingTransitions) ∧
    ((¬ ∃ u ∈ d.row s, u.on.Meets on) →
      ∃ e, (Tables.addTransition s on t).outcome d.tables = (pure (), e.tables) ∧
        d.Adds s on t e ∧
        ∃ f, d.addTransition s on t = .ok f ∧ d.Adds s on t f ∧
          ((d.row s).Joined → f = e)) := by
  have hordered := h.ordered_row s
  constructor
  · intro hmeets
    obtain ⟨hadd, hnone⟩ := Row.add_refused hordered hmeets t
    refine ⟨?_, ?_⟩
    · rw [Tables.addTransition, inRow_tables hs hadd, setRow_row]
    · rw [Dfa.addTransition, hnone]
  · intro hclear
    obtain ⟨row, hadd, hrow, row', hinsert, hrow', heq⟩ := Row.add_accepted hordered hclear t
    refine ⟨d.setRow s row, inRow_tables hs hadd, adds_setRow h hs ht hrow, d.setRow s row', ?_,
      adds_setRow h hs ht hrow', fun hjoined => congrArg (d.setRow s) (heq hjoined)⟩
    rw [Dfa.addTransition, hinsert]
    rfl

/-- Two ranges with one character between them, across the surrogates. -/
def aroundGap : Dfa :=
  ⟨0, [⟨false, [⟨⟨'a', '\uD7FF', by decide⟩, 1⟩, ⟨⟨'\uE001', '\uFFFF', by decide⟩, 1⟩]⟩,
    ⟨true, []⟩]⟩

/-- The missing character makes one range of the two, and a character of one of them is
refused. -/
theorem addTransition_exact_aroundGap :
    aroundGap.WellFormed ∧ 0 < aroundGap.size ∧ 1 < aroundGap.size ∧
    (∃ e, (Tables.addTransition 0 (.singleton '\uE000') 1).outcome aroundGap.tables =
        (pure (), e.tables) ∧ aroundGap.Adds 0 (.singleton '\uE000') 1 e ∧
        e.tables.rows = [[⟨⟨'a', '\uFFFF', by decide⟩, 1⟩], []]) ∧
    (Tables.addTransition 0 (.singleton 'b') 1).outcome aroundGap.tables =
      (throw (.misuse .overlappingTransitions), aroundGap.tables) := by
  have hwell : aroundGap.WellFormed := ⟨by decide, by decide, by decide⟩
  have hstart : 0 < aroundGap.size := by decide
  have hend : 1 < aroundGap.size := by decide
  obtain ⟨e, hcall, hadds, -⟩ :=
    (addTransition_exact hwell hstart hend (.singleton '\uE000')).2 (by decide)
  have hrows : ((Tables.addTransition 0 (.singleton '\uE000') 1).outcome
      aroundGap.tables).2.rows = [[⟨⟨'a', '\uFFFF', by decide⟩, 1⟩], []] := by decide
  rw [hcall] at hrows
  exact ⟨hwell, hstart, hend, ⟨e, hcall, hadds, hrows⟩,
    ((addTransition_exact hwell hstart hend (.singleton 'b')).1 (by decide)).1⟩

end Dfa

end PatternAutomata
