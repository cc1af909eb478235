import PatternAutomata.Proofs.IntervalMaps

/-!
# Which calls an insertion makes

An insertion may unify values with a function that has effects, so it matters on which
pairs of values the function is called, and when. The calls are one for each entry that the
key meets, in the order of the entries, and nothing but their results enters the map: the
cutting of the intervals is the same whatever the calls give (`insertM_eq`).

What becomes of the results is known from insertions without effects. Each entry that the
key meets is paired with the result of its call, and the value is inserted with a function
that takes the second component (`overlayResults`).

## Main results

* `insertM_eq`: the calls of an insertion.
* `find?_placed`: where their results are found.
* `insertM_pointwise`: both together.
-/

namespace PatternAutomata

open PatternAutomata.Interval

namespace IntervalMap

universe u v

variable {α : Type u} {M : Type u → Type v} [Monad M] [LawfulMonad M]

/-- The entries that share a character with the key, in their order. -/
def met (map : IntervalMap α) (key : Interval) : List (Interval × α) :=
  map.entries.filter fun e => decide (e.1.Meets key)

/-- Entries with other values. -/
def revalue (entries : List (Interval × α)) (results : List α) : List (Interval × α) :=
  List.zipWith (fun e new => (e.1, new)) entries results

/-- Entries with their values and others. -/
def pairUp (entries : List (Interval × α)) (results : List α) : List (Interval × (α × α)) :=
  List.zipWith (fun e new => (e.1, (e.2, new))) entries results

/-- Entries without their second values. -/
def firsts (entries : List (Interval × (α × α))) : List (Interval × α) :=
  entries.map fun e => (e.1, e.2.1)

/-- The overlay of entries for which the results of unifying are given. -/
def overlayResults (value : α) (rest : Option Interval) (entries : List (Interval × α))
    (results : List α) : List (Interval × α) :=
  firsts (overlay (fun pair _ => (pair.2, pair.2)) (value, value) rest
    (pairUp entries results))

/-- The map after an insertion for which the results of unifying are given. -/
def placed (map : IntervalMap α) (key : Interval) (value : α) (results : List α) :
    IntervalMap α :=
  let r := intersecting (map.entries.map (·.1)) key
  ⟨r.splice (overlayResults value (some key) (r.slice map.entries) results) map.entries⟩

@[simp] theorem map_piece {β : Type u} (f : α → β) (part : Option Interval) (value : α) :
    (piece part value).map (fun e => (e.1, f e.2)) = piece part (f value) := by
  cases part <;> rfl

theorem overlayResults_cons (value : α) {rest i common : Interval} {old new : α}
    {entries : List (Interval × α)} {results : List α} (h : i.inter? rest = some common) :
    overlayResults value (some rest) ((i, old) :: entries) (new :: results) =
      piece (i.below? rest.lo) old ++ piece (rest.below? i.lo) value
        ++ (common, new) :: (piece (i.above? common.hi) old
          ++ overlayResults value (rest.above? common.hi) entries results) := by
  have hpairs : pairUp ((i, old) :: entries) (new :: results) =
      (i, (old, new)) :: pairUp entries results := rfl
  rw [overlayResults, hpairs, overlay_cons _ _ h, firsts]
  simp only [List.map_append, List.map_cons, map_piece (Prod.fst : α × α → α)]
  rfl

/-- Weaving calls the function for one entry after the other, and then interleaves. -/
theorem weave_eq (unify : α → α → M α) (value : α) {entries : List (Interval × α)}
    (hasc : Ascending (entries.map (·.1))) (rest : Option Interval)
    (hmeet : ∀ e ∈ entries, ∃ r ∈ rest, e.1.Meets r) :
    weave unify value rest entries = do
      let results ← entries.mapM fun e => unify e.2 value
      return overlayResults value rest entries results := by
  refine meeting_induction (fun rest => ?_) (fun hcommon _ _ _ htail => ?_) hasc rest hmeet
  · rw [List.mapM_nil, pure_bind]
    cases rest with
    | none => rfl
    | some r => rfl
  · rw [weave, hcommon, List.mapM_cons]
    simp only [htail, bind_assoc, pure_bind, overlayResults_cons value hcommon]

/-! ## The entries that the key meets -/

variable {map : IntervalMap α} {key : Interval} {pre mid post : List (Interval × α)}

theorem met_of_split (hm : map.entries = pre ++ mid ++ post)
    (hpre : ∀ e ∈ pre, e.1.Before key) (hmid : ∀ e ∈ mid, e.1.Meets key)
    (hpost : ∀ e ∈ post, key.Before e.1) : map.met key = mid := by
  have hpre' : ∀ e ∈ pre, ¬ decide (e.1.Meets key) = true := by
    intro e he
    rw [decide_eq_true_eq]
    exact (hpre e he).not_meets
  have hpost' : ∀ e ∈ post, ¬ decide (e.1.Meets key) = true := by
    intro e he
    rw [decide_eq_true_eq, meets_comm]
    exact (hpost e he).not_meets
  have hmid' : ∀ e ∈ mid, decide (e.1.Meets key) = true := by
    intro e he
    exact decide_eq_true (hmid e he)
  rw [met, hm, List.filter_append, List.filter_append, List.filter_eq_nil_iff.2 hpre',
    List.filter_eq_nil_iff.2 hpost', List.filter_eq_self.2 hmid', List.nil_append,
    List.append_nil]

/-- The entries that the key meets are in ascending order. -/
theorem ascending_met (h : map.Ordered) (key : Interval) :
    Ascending ((map.met key).map (·.1)) :=
  List.Pairwise.sublist (List.filter_sublist.map _) h

theorem placed_of_split (hm : map.entries = pre ++ mid ++ post)
    (hr : intersecting (map.entries.map (·.1)) key =
      ⟨pre.length, pre.length + mid.length⟩) (value : α) (results : List α) :
    map.placed key value results =
      ⟨pre ++ overlayResults value (some key) mid results ++ post⟩ := by
  rw [placed, hr, hm, IndexRange.slice_split, IndexRange.splice_split]

/-- An insertion makes its calls first. -/
theorem insertM_eq (h : map.Ordered) (unify : α → α → M α) (key : Interval) (value : α) :
    map.insertM unify key value = do
      let results ← (map.met key).mapM fun e => unify e.2 value
      return map.placed key value results := by
  obtain ⟨pre, mid, post, hm, hr, hpre, hmid, hpost⟩ := exists_split h key
  have hmet : map.met key = mid := met_of_split hm hpre hmid hpost
  have hweave := weave_eq unify value (h.middle hm) (some key) fun e he => ⟨key, rfl, hmid e he⟩
  rw [insertM_of_split unify hm hr, hweave, hmet]
  simp only [bind_assoc, pure_bind, placed_of_split hm hr]

/-! ## The results of the calls

The map in which every value is paired with itself, but with the result of its call where
the key meets the entry, is a map like the others. Inserting into it with a function that
takes second components has no effects, and the first components of what results are the
map after the calls.
-/

@[simp] theorem valueAt?_append (xs ys : List (Interval × α)) (c : Char) :
    valueAt? (xs ++ ys) c = (valueAt? xs c).or (valueAt? ys c) := by
  rw [valueAt?, List.find?_append]
  cases h : xs.find? fun e => decide (c ∈ e.1) with
  | none => simp [valueAt?, h]
  | some e => simp [valueAt?, h]

/-- Entries with their values twice. -/
def twice (entries : List (Interval × α)) : List (Interval × (α × α)) :=
  entries.map fun e => (e.1, (e.2, e.2))

/-- Entries without their first values. -/
def seconds (entries : List (Interval × (α × α))) : List (Interval × α) :=
  entries.map fun e => (e.1, e.2.2)

/-- The entries of a map with the results of the calls for those in the middle. -/
def paired (pre mid post : List (Interval × α)) (results : List α) :
    IntervalMap (α × α) :=
  ⟨twice pre ++ pairUp mid results ++ twice post⟩

@[simp] theorem firsts_append (xs ys : List (Interval × (α × α))) :
    firsts (xs ++ ys) = firsts xs ++ firsts ys := List.map_append

@[simp] theorem seconds_append (xs ys : List (Interval × (α × α))) :
    seconds (xs ++ ys) = seconds xs ++ seconds ys := List.map_append

@[simp] theorem firsts_twice (entries : List (Interval × α)) :
    firsts (twice entries) = entries := by
  rw [firsts, twice, List.map_map]
  exact List.map_id entries

@[simp] theorem seconds_twice (entries : List (Interval × α)) :
    seconds (twice entries) = entries := by
  rw [seconds, twice, List.map_map]
  exact List.map_id entries

theorem firsts_pairUp {results : List α} (h : results.length = mid.length) :
    firsts (pairUp mid results) = mid := by
  have hzip : (mid.zip results).map Prod.fst = mid := List.map_fst_zip (Nat.le_of_eq h.symm)
  rw [List.zip, List.map_zipWith] at hzip
  rw [firsts, pairUp, List.map_zipWith]
  exact hzip

theorem seconds_pairUp (entries : List (Interval × α)) (results : List α) :
    seconds (pairUp entries results) = revalue entries results := by
  rw [seconds, pairUp, List.map_zipWith]
  rfl

theorem firsts_paired {results : List α} (h : results.length = mid.length) :
    firsts (paired pre mid post results).entries = pre ++ mid ++ post := by
  simp [paired, firsts_pairUp h]

theorem seconds_paired (pre mid post : List (Interval × α)) (results : List α) :
    seconds (paired pre mid post results).entries = pre ++ revalue mid results ++ post := by
  simp [paired, seconds_pairUp]

theorem keys_paired {results : List α} (hm : map.entries = pre ++ mid ++ post)
    (h : results.length = mid.length) :
    (paired pre mid post results).entries.map (·.1) = map.entries.map (·.1) := by
  rw [hm, ← firsts_paired h, firsts, List.map_map]
  rfl

/-- Within the key only the entries that it meets have values. -/
theorem find?_paired {c : Char} (mid : List (Interval × α)) (results : List α)
    (hpre : ∀ e ∈ pre, e.1.Before key)
    (hpost : ∀ e ∈ post, key.Before e.1) (hc : c ∈ key) :
    ((paired pre mid post results).find? c).map Prod.snd =
      valueAt? (revalue mid results) c := by
  have hpre' : valueAt? pre c = none :=
    valueAt?_eq_none_iff.2 fun e he => (hpre e he).not_mem_left hc
  have hpost' : valueAt? post c = none :=
    valueAt?_eq_none_iff.2 fun e he => (hpost e he).not_mem_right hc
  have hseconds : ((paired pre mid post results).find? c).map Prod.snd =
      valueAt? (seconds (paired pre mid post results).entries) c :=
    (valueAt?_map Prod.snd _ c).symm
  rw [hseconds, seconds_paired, valueAt?_append, valueAt?_append, hpre', hpost',
    Option.none_or, Option.or_none]

/-- An insertion without effects takes the results from the second components. -/
theorem firsts_insert_paired {results : List α} (hm : map.entries = pre ++ mid ++ post)
    (hr : intersecting (map.entries.map (·.1)) key =
      ⟨pre.length, pre.length + mid.length⟩)
    (h : results.length = mid.length) (value : α) :
    firsts ((paired pre mid post results).insert (fun pair _ => (pair.2, pair.2)) key
      (value, value)).entries = (map.placed key value results).entries := by
  have hlength : (pairUp mid results).length = mid.length := by
    rw [pairUp, List.length_zipWith, h, Nat.min_self]
  have htwice : (twice pre).length = pre.length := List.length_map _
  have hr' : intersecting ((paired pre mid post results).entries.map (·.1)) key =
      ⟨(twice pre).length, (twice pre).length + (pairUp mid results).length⟩ := by
    rw [keys_paired hm h, hr, htwice, hlength]
  rw [insert, insertM_of_split (m := paired pre mid post results) _ rfl hr',
    placed_of_split hm hr]
  show firsts (twice pre ++ overlay _ _ _ _ ++ twice post) = _
  rw [firsts_append, firsts_append, firsts_twice, firsts_twice]
  rfl

/-- The map that results is in order. -/
theorem ordered_placed (h : map.Ordered) (key : Interval) (value : α) {results : List α}
    (hlength : results.length = (map.met key).length) :
    (map.placed key value results).Ordered := by
  obtain ⟨pre, mid, post, hm, hr, hpre, hmid, hpost⟩ := exists_split h key
  rw [met_of_split hm hpre hmid hpost] at hlength
  have hpaired : (paired pre mid post results).Ordered := by
    rw [Ordered, keys_paired hm hlength]
    exact h
  have hkeys := ordered_insert (fun pair _ => (pair.2, pair.2)) hpaired key (value, value)
  rw [Ordered, ← firsts_insert_paired hm hr hlength, firsts, List.map_map]
  exact hkeys

/-- Within the key the results of the calls are found, each where its entry is, and the
value elsewhere. -/
theorem find?_placed (h : map.Ordered) (key : Interval) (value : α) {results : List α}
    (hlength : results.length = (map.met key).length) (c : Char) :
    (map.placed key value results).find? c =
      if c ∈ key then
        some (((⟨revalue (map.met key) results⟩ : IntervalMap α).find? c).getD value)
      else map.find? c := by
  obtain ⟨pre, mid, post, hm, hr, hpre, hmid, hpost⟩ := exists_split h key
  rw [met_of_split hm hpre hmid hpost] at hlength ⊢
  have hpaired : (paired pre mid post results).Ordered := by
    rw [Ordered, keys_paired hm hlength]
    exact h
  have hold : map.find? c = ((paired pre mid post results).find? c).map Prod.fst := by
    show valueAt? map.entries c = (valueAt? _ c).map Prod.fst
    rw [hm, ← firsts_paired hlength, firsts, valueAt?_map]
  have hfind : (map.placed key value results).find? c =
      (((paired pre mid post results).insert (fun pair _ => (pair.2, pair.2)) key
        (value, value)).find? c).map Prod.fst := by
    show valueAt? _ c = (valueAt? _ c).map Prod.fst
    rw [← firsts_insert_paired hm hr hlength, firsts, valueAt?_map]
  rw [hfind, find?_insert _ hpaired]
  by_cases hc : c ∈ key
  · have hnew := find?_paired mid results hpre hpost hc
    rw [if_pos hc, if_pos hc]
    show _ = some ((valueAt? (revalue mid results) c).getD value)
    rw [← hnew]
    cases (paired pre mid post results).find? c with
    | none => rfl
    | some pair => rfl
  · rw [if_neg hc, if_neg hc, hold]

/-- Insertion into a map in order is pointwise. A function without effects leaves the map
in order, the values outside the key as they were, and inside it the value, united with the
one that was there. Whatever effects a function has, it is called once for each entry that
the key meets, in ascending order, on the value of the entry and the inserted one, and the
results come to stand, for the characters of the key, where the values of the entries were. -/
theorem insertM_pointwise (h : map.Ordered) (key : Interval) (value : α) :
    (∀ f : α → α → α, (map.insert f key value).Ordered ∧
      ∀ c, (map.insert f key value).find? c =
        if c ∈ key then some ((map.find? c).elim value (f · value)) else map.find? c) ∧
    Ascending ((map.met key).map (·.1)) ∧
    (∀ {M : Type u → Type v} [Monad M] [LawfulMonad M] (unify : α → α → M α),
      map.insertM unify key value = do
        let results ← (map.met key).mapM fun e => unify e.2 value
        return map.placed key value results) ∧
    ∀ results : List α, results.length = (map.met key).length →
      (map.placed key value results).Ordered ∧
      ∀ c, (map.placed key value results).find? c =
        if c ∈ key then
          some (((⟨revalue (map.met key) results⟩ : IntervalMap α).find? c).getD value)
        else map.find? c := by
  refine ⟨fun f => ⟨ordered_insert f h key value, find?_insert f h key value⟩,
    ascending_met h key, fun unify => insertM_eq h unify key value, fun results hlength => ?_⟩
  exact ⟨ordered_placed h key value hlength, find?_placed h key value hlength⟩

/-- A key that begins in one entry, covers the next, which touches it, and a gap, and ends
at the first character of the last. The function keeps a log of its calls, and a call gives
the number of calls before it. -/
theorem insertM_pointwise_touching :
    let map : IntervalMap Nat := ⟨[(⟨'b', 'd', by decide⟩, 1), (⟨'e', 'f', by decide⟩, 2),
      (⟨'j', 'k', by decide⟩, 3)]⟩
    let key : Interval := ⟨'c', 'j', by decide⟩
    let unify : Nat → Nat → StateM (List (Nat × Nat)) Nat := fun old new => do
      let calls ← get
      set (calls ++ [(old, new)])
      return calls.length
    map.Ordered ∧
    ((map.insertM unify key 10).run []).2 = [(1, 10), (2, 10), (3, 10)] ∧
    ['b', 'c', 'f', 'g', 'j', 'k', 'l'].map ((map.insertM unify key 10).run []).1.find? =
      [some 1, some 0, some 1, some 10, some 2, some 3, none] := by
  intro map key unify
  have hordered : map.Ordered := by decide
  obtain ⟨-, -, hcalls, hplaced⟩ := insertM_pointwise hordered key 10
  have hrun : (map.insertM unify key 10).run [] =
      (map.placed key 10 [0, 1, 2], [(1, 10), (2, 10), (3, 10)]) := by
    rw [hcalls unify]
    rfl
  obtain ⟨-, hfind⟩ := hplaced [0, 1, 2] rfl
  refine ⟨hordered, ?_, ?_⟩
  · rw [hrun]
  · rw [hrun]
    simp only [List.map_cons, List.map_nil, hfind]
    decide

end IntervalMap

end PatternAutomata
