import PatternAutomata.Exploration

/-!
# What an exploration finds

An exploration within a finite universe finds the nodes that can be reached and no
others, whichever of the waiting nodes it looks at first. The bound on its steps is
no restriction as long as it is at least the size of the universe: each step takes
one node off the waiting list, and each node gets there once.

The order of discovery depends on the graph alone. Renaming the nodes of a graph
renames the list of its exploration (`explore_map`), so two graphs of the same
shape are numbered in the same way.

## Main results

* `mem_explore_iff`: an exploration lists the nodes that can be reached.
* `explore_map`: an exploration commutes with renaming.
-/

namespace PatternAutomata.Exploration

variable {κ : Type u} {κ' : Type v}

/-- Some node of a list leads to the node along edges. -/
inductive Reaches (successors : κ → List κ) (starts : List κ) : κ → Prop where
  | start {k : κ} : k ∈ starts → Reaches successors starts k
  | step {k l : κ} :
      Reaches successors starts k → l ∈ successors k → Reaches successors starts l

@[simp] theorem length_enqueue (d : Discipline) (new pending : List κ) :
    (d.enqueue new pending).length = new.length + pending.length := by
  cases d with
  | stack => simp [Discipline.enqueue]
  | queue => simp [Discipline.enqueue, Nat.add_comm]

theorem map_enqueue (f : κ → κ') (d : Discipline) (new pending : List κ) :
    (d.enqueue new pending).map f = d.enqueue (new.map f) (pending.map f) := by
  cases d with
  | stack => simp [Discipline.enqueue]
  | queue => simp [Discipline.enqueue]

/-! ## The invariant of a run -/

/-- What holds at each step of an exploration within a universe: the nodes met are
distinct members of it, the waiting ones are among them, the others lead nowhere new,
and there are steps left for the nodes that wait or are yet to be met. -/
structure Sound (successors : κ → List κ) (univ : List κ) (bound : Nat)
    (pending seen : List κ) : Prop where
  nodup : seen.Nodup
  seen_subset : seen ⊆ univ
  pending_subset : pending ⊆ seen
  closed : ∀ k ∈ univ, ∀ l ∈ successors k, l ∈ univ
  expanded : ∀ k ∈ seen, k ∈ pending ∨ ∀ l ∈ successors k, l ∈ seen
  room : univ.length + pending.length ≤ bound + seen.length

variable {successors : κ → List κ} {univ : List κ} {d : Discipline}

theorem Sound.length_le {bound : Nat} {pending seen : List κ}
    (h : Sound successors univ bound pending seen) : pending.length ≤ bound := by
  have h1 := h.nodup.length_le_of_subset h.seen_subset
  have h2 := h.room
  omega

/-- The nodes met lead nowhere new, except for some that are still being looked at. -/
def ClosedUpTo (successors : κ → List κ) (open_ seen : List κ) : Prop :=
  ∀ k ∈ seen, k ∈ open_ ∨ ∀ l ∈ successors k, l ∈ seen

theorem ClosedUpTo.foldl {open_ ks : List κ} {visit : List κ → κ → List κ}
    (hvisit : ∀ seen, ClosedUpTo successors open_ seen → ∀ k ∈ ks,
      seen ⊆ visit seen k ∧ k ∈ visit seen k ∧ ClosedUpTo successors open_ (visit seen k))
    {seen : List κ} (h : ClosedUpTo successors open_ seen) :
    seen ⊆ ks.foldl visit seen ∧ ks ⊆ ks.foldl visit seen ∧
      ClosedUpTo successors open_ (ks.foldl visit seen) := by
  induction ks generalizing seen with
  | nil => exact ⟨List.Subset.refl _, List.nil_subset _, h⟩
  | cons k ks ih =>
      obtain ⟨hsub, hk, hclosed⟩ := hvisit seen h k (by simp)
      obtain ⟨hsub', hks, hclosed'⟩ :=
        ih (fun seen h l hl => hvisit seen h l (List.mem_cons_of_mem k hl)) hclosed
      refine ⟨List.Subset.trans hsub hsub', ?_, hclosed'⟩
      intro l hl
      rcases List.mem_cons.1 hl with rfl | hl
      · exact hsub' hk
      · exact hks hl

variable [DecidableEq κ] [DecidableEq κ']

/-- What counts as newly met depends on the members of a list of nodes only. -/
theorem fresh_congr {seen seen' : List κ} (h : ∀ k, k ∈ seen ↔ k ∈ seen') (ks : List κ) :
    fresh seen ks = fresh seen' ks := by
  induction ks generalizing seen seen' with
  | nil => rfl
  | cons k ks ih =>
      simp only [fresh, h k, ih h]
      have hcons : ∀ l, l ∈ k :: seen ↔ l ∈ k :: seen' := by simp [h]
      rw [ih hcons]

/-- One step keeps the invariant. -/
theorem Sound.step {bound : Nat} {k : κ} {pending seen : List κ}
    (h : Sound successors univ (bound + 1) (k :: pending) seen) (d : Discipline) :
    Sound successors univ bound (d.enqueue (fresh seen (successors k)) pending)
      (seen ++ fresh seen (successors k)) := by
  have hk : k ∈ seen := h.pending_subset (by simp)
  refine
    { nodup := ?_
      seen_subset := ?_
      pending_subset := ?_
      closed := h.closed
      expanded := ?_
      room := ?_ }
  · refine List.nodup_append.2 ⟨h.nodup, nodup_fresh _ _, ?_⟩
    rintro a ha b hb rfl
    exact (mem_fresh.1 hb).2 ha
  · intro l hl
    rcases List.mem_append.1 hl with hl | hl
    · exact h.seen_subset hl
    · exact h.closed k (h.seen_subset hk) l (mem_fresh.1 hl).1
  · intro l hl
    rcases mem_enqueue.1 hl with hl | hl
    · exact List.mem_append_right _ hl
    · exact List.mem_append_left _ (h.pending_subset (by simp [hl]))
  · intro l hl
    by_cases hseen : l ∈ seen
    · by_cases hlk : l = k
      · right
        intro m hm
        by_cases hmseen : m ∈ seen
        · exact List.mem_append_left _ hmseen
        · exact List.mem_append_right _ (mem_fresh.2 ⟨hlk ▸ hm, hmseen⟩)
      · rcases h.expanded l hseen with hpending | hexpanded
        · left
          rcases List.mem_cons.1 hpending with hl | hl
          · exact absurd hl hlk
          · exact mem_enqueue.2 (Or.inr hl)
        · right
          intro m hm
          exact List.mem_append_left _ (hexpanded m hm)
    · left
      rcases List.mem_append.1 hl with hl | hl
      · exact absurd hl hseen
      · exact mem_enqueue.2 (Or.inl hl)
  · have hroom := h.room
    rw [length_enqueue, List.length_append]
    rw [List.length_cons] at hroom
    omega

theorem run_nil (d : Discipline) (successors : κ → List κ) (bound : Nat) (seen : List κ) :
    run d successors bound [] seen = seen := by
  cases bound <;> rfl

/-- When an exploration ends, it leads nowhere new. -/
theorem Sound.run_closed {bound : Nat} {pending seen : List κ}
    (h : Sound successors univ bound pending seen) :
    ∀ k ∈ run d successors bound pending seen, ∀ l ∈ successors k,
      l ∈ run d successors bound pending seen := by
  induction bound generalizing pending seen with
  | zero =>
      have hnil : pending = [] := List.length_eq_zero_iff.1 (Nat.le_zero.1 h.length_le)
      subst hnil
      intro k hk l hl
      rcases h.expanded k hk with hk | hk
      · cases hk
      · exact hk l hl
  | succ bound ih =>
      cases pending with
      | nil =>
          intro k hk l hl
          rcases h.expanded k hk with hk | hk
          · cases hk
          · exact hk l hl
      | cons k pending => exact ih (h.step d)

/-- What holds of the nodes met and along edges holds of all that is found. -/
theorem run_induction {P : κ → Prop} (hstep : ∀ k, P k → ∀ l ∈ successors k, P l)
    {bound : Nat} {pending seen : List κ} (hseen : ∀ k ∈ seen, P k)
    (hpending : ∀ k ∈ pending, P k) : ∀ k ∈ run d successors bound pending seen, P k := by
  induction bound generalizing pending seen with
  | zero => exact hseen
  | succ bound ih =>
      cases pending with
      | nil => exact hseen
      | cons k pending =>
          have hnew : ∀ l ∈ fresh seen (successors k), P l := by
            intro l hl
            exact hstep k (hpending k (by simp)) l (mem_fresh.1 hl).1
          apply ih
          · intro l hl
            rcases List.mem_append.1 hl with hl | hl
            · exact hseen l hl
            · exact hnew l hl
          · intro l hl
            rcases mem_enqueue.1 hl with hl | hl
            · exact hnew l hl
            · exact hpending l (by simp [hl])

/-- What is found is what the nodes met before lead to. -/
theorem Sound.mem_run_iff {bound : Nat} {pending seen starts : List κ}
    (h : Sound successors univ bound pending seen) (hseen : ∀ k, k ∈ seen ↔ k ∈ starts) {k : κ} :
    k ∈ run d successors bound pending seen ↔ Reaches successors starts k := by
  constructor
  · refine run_induction (fun k hk l hl => .step hk hl) ?_ ?_ k
    · exact fun l hl => .start ((hseen l).1 hl)
    · exact fun l hl => .start ((hseen l).1 (h.pending_subset hl))
  · intro hk
    induction hk with
    | start hk => exact subset_run ((hseen _).2 hk)
    | step _ hl ih => exact h.run_closed _ ih _ hl

/-- The nodes met so far stay in front. -/
theorem prefix_run (d : Discipline) (successors : κ → List κ) (bound : Nat)
    (pending seen : List κ) : seen <+: run d successors bound pending seen := by
  induction bound generalizing pending seen with
  | zero => exact List.prefix_rfl
  | succ bound ih =>
      cases pending with
      | nil => exact List.prefix_rfl
      | cons k pending => exact (List.prefix_append _ _).trans (ih _ _)

/-! ## Explorations from some nodes on -/

/-- The nodes to start from lie in a universe that edges do not leave, and the bound
is at least its size. -/
structure Enough (successors : κ → List κ) (bound : Nat) (starts univ : List κ) : Prop where
  starts_subset : starts ⊆ univ
  closed : ∀ k ∈ univ, ∀ l ∈ successors k, l ∈ univ
  length_le : univ.length ≤ bound

theorem Enough.sound {bound : Nat} {starts : List κ} (h : Enough successors bound starts univ) :
    Sound successors univ bound (distinct starts) (distinct starts) where
  nodup := nodup_distinct starts
  seen_subset := fun _ hk => h.starts_subset (mem_distinct.1 hk)
  pending_subset := fun _ hk => hk
  closed := h.closed
  expanded := fun _ hk => Or.inl hk
  room := by
    have := h.length_le
    omega

theorem mem_explore_of_mem {bound : Nat} {starts : List κ} {k : κ} (hk : k ∈ starts) :
    k ∈ explore d successors bound starts :=
  subset_run (mem_distinct.2 hk)

theorem Enough.explore_closed {bound : Nat} {starts : List κ}
    (h : Enough successors bound starts univ) :
    ∀ k ∈ explore d successors bound starts, ∀ l ∈ successors k,
      l ∈ explore d successors bound starts :=
  h.sound.run_closed

/-- An exploration with a sufficient bound lists the nodes that can be reached. -/
theorem Enough.mem_explore_iff {bound : Nat} {starts : List κ}
    (h : Enough successors bound starts univ) {k : κ} :
    k ∈ explore d successors bound starts ↔ Reaches successors starts k :=
  h.sound.mem_run_iff fun _ => mem_distinct

@[simp] theorem distinct_singleton (k : κ) : distinct [k] = [k] := by
  simp [distinct, fresh]

/-- The node that an exploration starts from is listed first. -/
theorem exists_explore_eq_cons (d : Discipline) (successors : κ → List κ) (bound : Nat)
    (k : κ) : ∃ later, explore d successors bound [k] = k :: later := by
  obtain ⟨later, h⟩ := prefix_run d successors bound (distinct [k]) (distinct [k])
  refine ⟨later, ?_⟩
  rw [explore, ← h, distinct_singleton]
  rfl

/-! ## Renaming -/

theorem fresh_map {f : κ → κ'} (seen ks : List κ)
    (h : ∀ k ∈ seen ++ ks, ∀ l ∈ seen ++ ks, f k = f l → k = l) :
    fresh (seen.map f) (ks.map f) = (fresh seen ks).map f := by
  induction ks generalizing seen with
  | nil => rfl
  | cons k ks ih =>
      have hmem : f k ∈ seen.map f ↔ k ∈ seen := by
        constructor
        · intro hk
          obtain ⟨l, hl, hlk⟩ := List.mem_map.1 hk
          rw [← h l (by simp [hl]) k (by simp) hlk]
          exact hl
        · exact List.mem_map_of_mem
      have hskip : ∀ l ∈ seen ++ ks, l ∈ seen ++ k :: ks := by
        intro l hl
        rw [List.mem_append] at hl ⊢
        exact hl.imp_right (List.mem_cons_of_mem k)
      by_cases hk : k ∈ seen
      · rw [List.map_cons, fresh, fresh, if_pos (hmem.2 hk), if_pos hk]
        exact ih seen fun a ha b hb => h a (hskip a ha) b (hskip b hb)
      · have hmove : ∀ l ∈ k :: seen ++ ks, l ∈ seen ++ k :: ks := by
          intro l hl
          rcases List.mem_cons.1 hl with rfl | hl
          · simp
          · exact hskip l hl
        have htail := ih (k :: seen) fun a ha b hb => h a (hmove a ha) b (hmove b hb)
        rw [List.map_cons] at htail
        rw [List.map_cons, fresh, fresh, if_neg (mt hmem.1 hk), if_neg hk, List.map_cons,
          htail]

/-- Renaming the nodes renames what is found, in the same order. The two bounds may
differ as long as both suffice. -/
theorem run_map {successors' : κ' → List κ'} {univ' : List κ'} {f : κ → κ'} {P : κ → Prop}
    (hinj : ∀ k l, P k → P l → f k = f l → k = l)
    (hstep : ∀ k, P k → ∀ l ∈ successors k, P l)
    (hsucc : ∀ k, P k → successors' (f k) = (successors k).map f)
    {bound bound' : Nat} {pending seen : List κ} (hseen : ∀ k ∈ seen, P k)
    (h : Sound successors univ bound pending seen)
    (h' : Sound successors' univ' bound' (pending.map f) (seen.map f)) :
    run d successors' bound' (pending.map f) (seen.map f) =
      (run d successors bound pending seen).map f := by
  induction bound generalizing bound' pending seen with
  | zero =>
      have hnil : pending = [] := List.length_eq_zero_iff.1 (Nat.le_zero.1 h.length_le)
      subst hnil
      rw [List.map_nil, run_nil, run_nil]
  | succ bound ih =>
      cases pending with
      | nil => rw [List.map_nil, run_nil, run_nil]
      | cons k pending =>
          cases bound' with
          | zero =>
              have := h'.length_le
              simp at this
          | succ bound' =>
              have hk : P k := hseen k (h.pending_subset (by simp))
              have hnew : fresh (seen.map f) (successors' (f k)) =
                  (fresh seen (successors k)).map f := by
                rw [hsucc k hk]
                apply fresh_map
                have hP : ∀ l ∈ seen ++ successors k, P l := by
                  intro l hl
                  rcases List.mem_append.1 hl with hl | hl
                  · exact hseen l hl
                  · exact hstep k hk l hl
                exact fun a ha b hb hab => hinj a b (hP a ha) (hP b hb) hab
              have hnext := h'.step d
              rw [hnew, ← map_enqueue, ← List.map_append] at hnext
              rw [List.map_cons, run, run, hnew, ← map_enqueue, ← List.map_append]
              refine ih ?_ (h.step d) hnext
              intro l hl
              rcases List.mem_append.1 hl with hl | hl
              · exact hseen l hl
              · exact hstep k hk l (mem_fresh.1 hl).1

/-- An exploration of a renamed graph lists the renamed nodes. -/
theorem explore_map {successors' : κ' → List κ'} {univ' : List κ'} {f : κ → κ'}
    {bound bound' : Nat} {starts : List κ} (h : Enough successors bound starts univ)
    (h' : Enough successors' bound' (starts.map f) univ')
    (hinj : ∀ k l, Reaches successors starts k → Reaches successors starts l →
      f k = f l → k = l)
    (hsucc : ∀ k, Reaches successors starts k → successors' (f k) = (successors k).map f) :
    explore d successors' bound' (starts.map f) =
      (explore d successors bound starts).map f := by
  have hdistinct : distinct (starts.map f) = (distinct starts).map f := by
    refine fresh_map [] starts ?_
    intro k hk l hl
    exact hinj k l (.start (by simpa using hk)) (.start (by simpa using hl))
  have hsound := h'.sound
  rw [hdistinct] at hsound
  rw [explore, hdistinct]
  refine run_map hinj (fun k hk l hl => .step hk hl) hsucc ?_ h.sound hsound
  intro k hk
  exact .start (mem_distinct.1 hk)

/-! ## Depth first -/

/-- In a graph of bounded height, all that a node leads to is met before the next node
is looked at. -/
theorem preorder_spec {rank : κ → Nat} (hrank : ∀ k, ∀ l ∈ successors k, rank l < rank k)
    {height : Nat} {open_ seen : List κ} {k : κ} (hk : rank k ≤ height)
    (h : ClosedUpTo successors open_ seen) :
    seen ⊆ preorder successors height seen k ∧ k ∈ preorder successors height seen k ∧
      ClosedUpTo successors open_ (preorder successors height seen k) := by
  induction height generalizing open_ seen k with
  | zero =>
      rw [preorder]
      by_cases hmem : k ∈ seen
      · rw [if_pos hmem]
        exact ⟨List.Subset.refl _, hmem, h⟩
      · rw [if_neg hmem]
        refine ⟨List.subset_append_left _ _, by simp, ?_⟩
        intro l hl
        rcases List.mem_append.1 hl with hl | hl
        · exact (h l hl).imp_right fun hsucc m hm => List.mem_append_left _ (hsucc m hm)
        · right
          intro m hm
          rw [List.mem_singleton.1 hl] at hm
          have := hrank k m hm
          omega
  | succ height ih =>
      rw [preorder]
      by_cases hmem : k ∈ seen
      · rw [if_pos hmem]
        exact ⟨List.Subset.refl _, hmem, h⟩
      · rw [if_neg hmem]
        -- While the successors are visited, `k` is one of those being looked at.
        have hopen : ClosedUpTo successors (k :: open_) (seen ++ [k]) := by
          intro l hl
          rcases List.mem_append.1 hl with hl | hl
          · rcases h l hl with hopen | hsucc
            · exact Or.inl (List.mem_cons_of_mem k hopen)
            · exact Or.inr fun m hm => List.mem_append_left _ (hsucc m hm)
          · exact Or.inl (by rw [List.mem_singleton.1 hl]; simp)
        have hvisit : ∀ seen, ClosedUpTo successors (k :: open_) seen →
            ∀ l ∈ successors k, seen ⊆ preorder successors height seen l ∧
              l ∈ preorder successors height seen l ∧
              ClosedUpTo successors (k :: open_) (preorder successors height seen l) := by
          intro seen h l hl
          exact ih (by have := hrank k l hl; omega) h
        obtain ⟨hsub, hsucc, hclosed⟩ := ClosedUpTo.foldl hvisit hopen
        refine ⟨List.Subset.trans (List.subset_append_left _ _) hsub, hsub (by simp), ?_⟩
        intro l hl
        rcases hclosed l hl with hmem' | hl'
        · rcases List.mem_cons.1 hmem' with rfl | hopen'
          · exact Or.inr fun m hm => hsucc hm
          · exact Or.inl hopen'
        · exact Or.inr hl'

theorem preorder_induction {P : κ → Prop} (hstep : ∀ k, P k → ∀ l ∈ successors k, P l)
    {height : Nat} {seen : List κ} {k : κ} (hseen : ∀ l ∈ seen, P l) (hk : P k) :
    ∀ l ∈ preorder successors height seen k, P l := by
  have hadd : ∀ {seen : List κ}, (∀ l ∈ seen, P l) → ∀ {k : κ}, P k →
      ∀ l ∈ seen ++ [k], P l := by
    intro seen hseen k hk l hl
    rcases List.mem_append.1 hl with hl | hl
    · exact hseen l hl
    · rw [List.mem_singleton.1 hl]
      exact hk
  induction height generalizing seen k with
  | zero =>
      rw [preorder]
      split
      · exact hseen
      · exact hadd hseen hk
  | succ height ih =>
      rw [preorder]
      split
      · exact hseen
      · refine List.foldlRecOn (motive := fun seen => ∀ l ∈ seen, P l) (successors k) _
          (hadd hseen hk) ?_
        intro seen hseen l hl
        exact ih hseen (hstep k hk l hl)

end PatternAutomata.Exploration
