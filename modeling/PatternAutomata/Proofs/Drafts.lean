import Mathlib.Data.List.Basic
import Mathlib.Data.List.Nodup
import Mathlib.Logic.Function.Basic
import PatternAutomata.Checked.Draft
import PatternAutomata.Proofs.Insertion
import PatternAutomata.Proofs.Tabulation

/-!
# Drawing an automaton and tabulating it

An automaton that is drawn state by state, in any order in which its keys are met,
ends up as the table of its machine over these keys. Between two steps a draft is a
`sketch`: the states of the keys drawn so far are as they will be in the end, since
the numbers of keys do not change when others are added, and the remaining states
have no transitions yet.

## Main results

* `Draft.follow_sketch`: the transitions of one key.
* `Draft.build_eq`, `Draft.drains_insertRow`: the automaton of an exploration.
* `Draft.expand_eq`: the automaton of a depth-first exploration.
-/

namespace PatternAutomata

open Exploration Row

namespace Exploration

variable {κ : Type}

theorem nodup_enqueue {new pending : List κ} (h : pending.Nodup) (hnew : new.Nodup)
    (hdisjoint : ∀ k ∈ new, k ∉ pending) (d : Discipline) : (d.enqueue new pending).Nodup := by
  cases d with
  | stack =>
    refine List.nodup_append.2 ⟨List.nodup_reverse.2 hnew, h, ?_⟩
    rintro k hk l hl rfl
    exact hdisjoint k (List.mem_reverse.1 hk) hl
  | queue =>
    refine List.nodup_append.2 ⟨h, hnew, ?_⟩
    rintro k hk l hl rfl
    exact hdisjoint k hl hk

theorem foldl_extends {visit : List κ → κ → List κ}
    (hvisit : ∀ seen : List κ, seen.Nodup → ∀ k, seen <+: visit seen k ∧ (visit seen k).Nodup)
    {seen : List κ} (h : seen.Nodup) (ks : List κ) :
    seen <+: ks.foldl visit seen ∧ (ks.foldl visit seen).Nodup := by
  induction ks generalizing seen with
  | nil => exact ⟨List.prefix_rfl, h⟩
  | cons k ks ih =>
    obtain ⟨hpre, hnodup⟩ := hvisit seen h k
    exact ⟨hpre.trans (ih hnodup).1, (ih hnodup).2⟩

variable [DecidableEq κ]

/-- Meeting some nodes is meeting the first and then the others. -/
theorem append_fresh_cons (seen : List κ) (k : κ) (ks : List κ) :
    seen ++ fresh seen (k :: ks) =
      (seen ++ fresh seen [k]) ++ fresh (seen ++ fresh seen [k]) ks := by
  by_cases hk : k ∈ seen
  · simp [fresh, hk]
  · simp only [fresh, hk, if_false, List.append_assoc, List.singleton_append]
    have hcons : ∀ l, l ∈ seen ++ [k] ↔ l ∈ k :: seen := by simp [or_comm]
    rw [fresh_congr hcons]

theorem subset_append_fresh (seen ks : List κ) : ks ⊆ seen ++ fresh seen ks := by
  intro k hk
  by_cases hseen : k ∈ seen
  · exact List.mem_append_left _ hseen
  · exact List.mem_append_right _ (mem_fresh.2 ⟨hk, hseen⟩)

theorem nodup_append_fresh {seen : List κ} (h : seen.Nodup) (ks : List κ) :
    (seen ++ fresh seen ks).Nodup := by
  refine List.nodup_append.2 ⟨h, nodup_fresh _ _, ?_⟩
  rintro a ha b hb rfl
  exact (mem_fresh.1 hb).2 ha

/-- Going on from some nodes keeps them in front and lists no node twice. -/
theorem preorder_extends (successors : κ → List κ) (height : Nat) (seen : List κ)
    (h : seen.Nodup) (k : κ) :
    seen <+: preorder successors height seen k ∧ (preorder successors height seen k).Nodup := by
  have hadd : ∀ {seen : List κ}, seen.Nodup → ∀ {k : κ}, k ∉ seen → (seen ++ [k]).Nodup :=
    fun h k hk => by simpa using List.Nodup.concat hk h
  induction height generalizing seen k with
  | zero =>
    rw [preorder]
    split
    · exact ⟨List.prefix_rfl, h⟩
    · next hk => exact ⟨List.prefix_append seen [k], hadd h hk⟩
  | succ height ih =>
    rw [preorder]
    split
    · exact ⟨List.prefix_rfl, h⟩
    · next hk =>
      obtain ⟨hpre, hnodup⟩ := foldl_extends ih (hadd h hk) (successors k)
      exact ⟨(List.prefix_append seen [k]).trans hpre, hnodup⟩

end Exploration

namespace Draft

variable {κ : Type} {keys : List κ} {f : κ → Dfa.State} {k l : κ}

/-- The draft with the given states for some keys. -/
def sketch (keys : List κ) (f : κ → Dfa.State) : Draft κ := ⟨keys, ⟨0, keys.map f⟩⟩

/-- Other keys than the given ones have no transitions and do not accept. -/
def Blank (keys : List κ) (f : κ → Dfa.State) : Prop := ∀ k, k ∉ keys → f k = .idle

theorem blank_append (hf : Blank keys f) (new : List κ) : Blank (keys ++ new) f :=
  fun k hk => hf k fun hmem => hk (List.mem_append_left _ hmem)

variable [DecidableEq κ]

theorem modify_idxOf (hnodup : keys.Nodup) (hk : k ∈ keys) (g : Dfa.State → Dfa.State) :
    (keys.map f).modify (keys.idxOf k) g = keys.map (Function.update f k (g (f k))) := by
  refine List.ext_getElem? fun i => ?_
  rw [List.getElem?_modify, List.getElem?_map, List.getElem?_map]
  cases hi : keys[i]? with
  | none => rfl
  | some l =>
    by_cases hl : l = k
    · have hidx : keys.idxOf k = i := by
        obtain ⟨hlt, hget⟩ := List.getElem?_eq_some_iff.1 hi
        rw [← hl, ← hget, hnodup.idxOf_getElem i hlt]
      simp [hl, hidx]
    · have hidx : keys.idxOf k ≠ i := by
        rintro rfl
        rw [Machine.getElem?_idxOf hk] at hi
        exact hl (Option.some.inj hi).symm
      simp [hl, hidx]

theorem stateAt_sketch (hk : k ∈ keys) :
    Checked.stateAt (sketch keys f).dfa (keys.idxOf k) = pure (f k) :=
  Checked.entry_eq (by simp [sketch, Machine.getElem?_idxOf hk])

theorem visit_sketch (hf : Blank keys f) :
    (sketch keys f).visit k = sketch (keys ++ fresh keys [k]) f := by
  by_cases hk : k ∈ keys
  · simp [visit, sketch, fresh, hk]
  · simp [visit, sketch, fresh, hk, Dfa.addState, hf k hk]

theorem mark_sketch (hnodup : keys.Nodup) (hk : k ∈ keys) (b : Bool) :
    (sketch keys f).mark k b =
      pure (sketch keys (Function.update f k { f k with accepting := b })) := by
  have hnumber : Checked.number (sketch keys f).keys k = pure (keys.idxOf k) :=
    Checked.number_eq hk
  simp only [mark, Checked.mark, hnumber, stateAt_sketch hk, pure_bind, Dfa.setAccepting]
  simp only [sketch, modify_idxOf hnodup hk]

theorem link_sketch {attach : Row → Interval → Nat → Checked Row} (hnodup : keys.Nodup)
    (hk : k ∈ keys) (hl : l ∈ keys) {on : Interval} {row : Row}
    (hattach : attach (f k).row on (keys.idxOf l) = pure row) :
    (sketch keys f).link attach k on l =
      pure (sketch keys (Function.update f k { f k with row })) := by
  have hs : Checked.number (sketch keys f).keys k = pure (keys.idxOf k) := Checked.number_eq hk
  have ht : Checked.number (sketch keys f).keys l = pure (keys.idxOf l) := Checked.number_eq hl
  simp only [link, Checked.link, Checked.rowAt, hs, ht, stateAt_sketch hk, hattach, pure_bind]
  simp only [sketch, modify_idxOf hnodup hk]

/-! ## The transitions of one key -/

/-- An edge as a transition to the number of its target. -/
def numbered (keys : List κ) (e : Interval × κ) : Transition := ⟨e.1, keys.idxOf e.2⟩

/-- Adding the edges one after the other in the given way joins them. -/
def Draws (attach : Row → Interval → Nat → Checked Row) (edges : List (Interval × κ)) : Prop :=
  ∀ keys : List κ, (∀ e ∈ edges, e.2 ∈ keys) → ∀ pre e post, edges = pre ++ e :: post →
    attach (coalesce (pre.map (numbered keys))) e.1 (keys.idxOf e.2) =
      pure (coalesce ((pre ++ [e]).map (numbered keys)))

variable {attach : Row → Interval → Nat → Checked Row} {edges pre post : List (Interval × κ)}
  {b : Bool}

/-- Edges in ascending order are joined as they are inserted. -/
theorem draws_insertRow (h : Interval.Ascending (edges.map (·.1))) :
    Draws Checked.insertRow edges := by
  rintro keys - pre e post rfl
  have hordered : Ordered ((pre ++ e :: post).map (numbered keys)) := by
    rw [Ordered, List.map_map]
    exact h
  rw [List.append_cons, List.map_append] at hordered
  have hpre := (ordered_append.1 hordered).1
  rw [List.map_append] at hpre ⊢
  exact Checked.insertRow_of_insert? (joined_coalesce (ordered_append.1 hpre).1)
    (insert?_coalesce hpre)

/-- Edges that are joined already are as they should be when they are put at the end. -/
theorem draws_pushRow (h : edges.Pairwise fun e e' =>
    e.1.Before e'.1 ∧ ¬ (e.2 = e'.2 ∧ e.1.Touches e'.1)) : Draws Checked.pushRow edges := by
  rintro keys hkeys pre e post rfl
  have hjoined : Row.Joined ((pre ++ e :: post).map (numbered keys)) := by
    rw [Row.Joined, List.pairwise_map]
    refine h.imp_of_mem fun {e e'} he _ hapart => ⟨hapart.1, fun hjoin => hapart.2 ⟨?_, hjoin.2⟩⟩
    exact (List.idxOf_inj (hkeys e he)).1 hjoin.1
  rw [List.append_cons, List.map_append] at hjoined
  have hnow : Row.Joined ((pre ++ [e]).map (numbered keys)) := (List.pairwise_append.1 hjoined).1
  have hpre : Row.Joined (pre.map (numbered keys)) := by
    rw [List.map_append] at hnow
    exact (List.pairwise_append.1 hnow).1
  rw [coalesce_of_joined hnow, coalesce_of_joined hpre, List.map_append]
  rfl

theorem blank_update (hf : Blank keys f) (hk : k ∈ keys) (s : Dfa.State) :
    Blank keys (Function.update f k s) := by
  intro l hl
  rw [Function.update_of_ne (by rintro rfl; exact hl hk)]
  exact hf l hl

/-- The rest of the edges of a key, after some were added. -/
theorem follow_rest (hdraws : Draws attach (pre ++ post)) (hnodup : keys.Nodup) (hk : k ∈ keys)
    (hf : Blank keys f) {final : List κ} (hfinal : keys ++ fresh keys (post.map (·.2)) = final)
    (hpre : ∀ e ∈ pre, e.2 ∈ keys) :
    (sketch keys (Function.update f k ⟨b, coalesce (pre.map (numbered final))⟩)).follow
        attach k post =
      pure (sketch final
        (Function.update f k ⟨b, coalesce ((pre ++ post).map (numbered final))⟩)) := by
  induction post generalizing pre keys with
  | nil =>
    have hfinal : keys = final := by simpa [fresh] using hfinal
    simp [follow, hfinal]
  | cons e post ih =>
    have hnodup' := nodup_append_fresh hnodup [e.2]
    have hk' : k ∈ keys ++ fresh keys [e.2] := List.mem_append_left _ hk
    have he : e.2 ∈ keys ++ fresh keys [e.2] := subset_append_fresh _ _ (by simp)
    rw [List.map_cons, append_fresh_cons] at hfinal
    have hnumber : (keys ++ fresh keys [e.2]).idxOf e.2 = final.idxOf e.2 := by
      rw [← hfinal, List.idxOf_append_of_mem he]
    have hmem : ∀ e' ∈ pre ++ e :: post, e'.2 ∈ final := by
      intro e' he'
      rw [← hfinal]
      rcases List.mem_append.1 he' with he' | he'
      · exact List.mem_append_left _ (List.mem_append_left _ (hpre e' he'))
      · rcases List.mem_cons.1 he' with rfl | he'
        · exact List.mem_append_left _ he
        · exact subset_append_fresh _ _ (List.mem_map_of_mem he')
    have hattach := hdraws final hmem pre e post rfl
    rw [← hnumber] at hattach
    have hlink := link_sketch (f := Function.update f k ⟨b, coalesce (pre.map (numbered final))⟩)
      hnodup' hk' he (by rw [Function.update_self]; exact hattach)
    rw [Function.update_self, Function.update_idem] at hlink
    rw [follow, List.foldlM_cons, visit_sketch (blank_update hf hk _), hlink, pure_bind, ← follow,
      ih (by rwa [← List.append_cons]) hnodup' hk' (blank_append hf _) hfinal, ← List.append_cons]
    exact List.forall_mem_append.2
      ⟨fun e' he' => List.mem_append_left _ (hpre e' he'), List.forall_mem_singleton.2 he⟩

/-- A key without transitions gets its row. -/
theorem follow_sketch (hdraws : Draws attach edges) (hnodup : keys.Nodup) (hk : k ∈ keys)
    (hf : Blank keys f) (hrow : (f k).row = []) :
    (sketch keys f).follow attach k edges =
      pure (sketch (keys ++ fresh keys (edges.map (·.2))) (Function.update f k ⟨(f k).accepting,
        coalesce (edges.map (numbered (keys ++ fresh keys (edges.map (·.2)))))⟩)) := by
  have hdraws' : Draws attach ([] ++ edges) := hdraws
  have hrest := follow_rest (b := (f k).accepting) hdraws' hnodup hk hf rfl (by simp)
  have hsame : Function.update f k ⟨(f k).accepting, coalesce []⟩ = f := by
    rw [Function.update_eq_self_iff]
    exact congrArg (Dfa.State.mk _) hrow.symm
  simpa [hsame] using hrest

/-! ## Drawing in order of discovery -/

/-- The state of a key once it is drawn. -/
def finished (n : Machine κ) (keys : List κ) (k : κ) : Dfa.State :=
  ⟨n.accepting k, n.row keys k⟩

variable {m : CheckedMachine κ} {n : Machine κ} {univ pending : List κ} {bound : Nat}
  {d : Discipline}

/-- Keys that are met later do not change a state that is drawn. -/
theorem finished_append (hsucc : ∀ l ∈ n.successors k, l ∈ keys) (new : List κ) :
    finished n (keys ++ new) k = finished n keys k := by
  have hedges : (n.edges k).map (numbered (keys ++ new)) = (n.edges k).map (numbered keys) := by
    refine List.map_congr_left fun e he => ?_
    rw [numbered, numbered, List.idxOf_append_of_mem (hsucc e.2 (List.mem_map_of_mem he))]
  exact congrArg (fun row => (⟨n.accepting k, coalesce row⟩ : Dfa.State)) hedges

/-- The calls of a machine find for some keys what another machine has there. -/
structure Reads (m : CheckedMachine κ) (n : Machine κ) (P : κ → Prop) : Prop where
  accepting : ∀ k, P k → m.accepting k = pure (n.accepting k)
  edges : ∀ k, P k → m.edges k = pure (n.edges k)

/-- The states that wait have no transitions, the others are finished. -/
structure Underway (n : Machine κ) (pending keys : List κ) (f : κ → Dfa.State) : Prop where
  blank : Blank keys f
  nodup : pending.Nodup
  idle : ∀ k ∈ pending, f k = .idle
  drawn : ∀ k ∈ keys, k ∉ pending → f k = finished n keys k

/-- Drawing the next key leaves the draft underway. -/
theorem Underway.step (h : Underway n (k :: pending) keys f)
    (hsound : Sound n.successors univ (bound + 1) (k :: pending) keys) (d : Discipline) :
    let keys' := keys ++ fresh keys (n.successors k)
    Underway n (d.enqueue (fresh keys (n.successors k)) pending) keys'
      (Function.update f k (finished n keys' k)) := by
  intro keys'
  have hk : k ∈ keys := hsound.pending_subset (by simp)
  have hpending : pending ⊆ keys := fun l hl =>
    hsound.pending_subset (List.mem_cons_of_mem k hl)
  have hnew : ∀ l ∈ fresh keys (n.successors k), l ∉ keys := fun l hl => (mem_fresh.1 hl).2
  have hwait : ∀ l ∈ d.enqueue (fresh keys (n.successors k)) pending, l ≠ k := by
    rintro l hl rfl
    rcases mem_enqueue.1 hl with hl | hl
    · exact hnew l hl hk
    · exact (List.nodup_cons.1 h.nodup).1 hl
  refine ⟨blank_update (blank_append h.blank _) (List.mem_append_left _ hk) _,
    nodup_enqueue (List.nodup_cons.1 h.nodup).2 (nodup_fresh _ _)
      (fun l hl hmem => hnew l hl (hpending hmem)) d, fun l hl => ?_, fun l hl hdone => ?_⟩
  · rw [Function.update_of_ne (hwait l hl)]
    rcases mem_enqueue.1 hl with hl | hl
    · exact h.blank l (hnew l hl)
    · exact h.idle l (List.mem_cons_of_mem k hl)
  · by_cases hlk : l = k
    · rw [hlk, Function.update_self]
    · have hwaits := fun hmem => hdone (mem_enqueue.2 hmem)
      have hl : l ∈ keys := (List.mem_append.1 hl).resolve_right fun hl => hwaits (.inl hl)
      have hdrawn : l ∉ k :: pending := fun hmem =>
        (List.mem_cons.1 hmem).elim hlk fun hmem => hwaits (.inr hmem)
      rw [Function.update_of_ne hlk, h.drawn l hl hdrawn]
      exact (finished_append ((hsound.expanded l hl).resolve_left hdrawn) _).symm

theorem Underway.eq_finished (h : Underway n [] keys f) :
    sketch keys f = sketch keys (finished n keys) := by
  rw [sketch, sketch, List.map_congr_left fun k hk => h.drawn k hk (by simp)]

/-- The next key gets its row, and the keys that it leads to first get states. -/
theorem draw_sketch (hm : Reads m n (· ∈ univ)) (hdraws : ∀ k ∈ univ, Draws attach (n.edges k))
    (hsound : Sound n.successors univ bound (k :: pending) keys)
    (h : Underway n (k :: pending) keys f) :
    (sketch keys f).draw m attach k =
      pure (sketch (keys ++ fresh keys (n.successors k)) (Function.update f k
        (finished n (keys ++ fresh keys (n.successors k)) k)), fresh keys (n.successors k)) := by
  have hk : k ∈ keys := hsound.pending_subset (by simp)
  have huniv : k ∈ univ := hsound.seen_subset hk
  have hidle : f k = .idle := h.idle k (by simp)
  have hmark := mark_sketch (f := f) hsound.nodup hk (n.accepting k)
  have hfollow :
      (sketch keys (Function.update f k { f k with accepting := n.accepting k })).follow
          attach k (n.edges k) =
        pure (sketch (keys ++ fresh keys (n.successors k)) (Function.update f k
          (finished n (keys ++ fresh keys (n.successors k)) k))) := by
    rw [follow_sketch (hdraws k huniv) hsound.nodup hk
      (blank_update h.blank hk _) (by rw [Function.update_self, hidle]; rfl),
      Function.update_self, Function.update_idem]
    rfl
  have hnew : (keys ++ fresh keys (n.successors k)).drop keys.length =
      fresh keys (n.successors k) := List.drop_left
  simp only [draw, hm.accepting k huniv, hm.edges k huniv, hmark, pure_bind, hfollow]
  simp only [sketch, hnew]

theorem build_cons (m : CheckedMachine κ) (attach : Row → Interval → Nat → Checked Row)
    (d : Discipline) (bound : Nat) (k : κ) (pending : List κ) (x : Draft κ) :
    x.build m attach d (bound + 1) (k :: pending) =
      x.draw m attach k >>= fun p => p.1.build m attach d bound (d.enqueue p.2 pending) := by
  simp only [build, draw, bind_assoc, pure_bind]

/-- Drawing what waits finishes the states of all keys that the exploration meets, and
then nothing waits any more. -/
theorem build_sketch (hm : Reads m n (· ∈ univ)) (hdraws : ∀ k ∈ univ, Draws attach (n.edges k))
    (hsound : Sound n.successors univ bound pending keys) (h : Underway n pending keys f) :
    (sketch keys f).build m attach d bound pending =
        pure (sketch (run d n.successors bound pending keys)
          (finished n (run d n.successors bound pending keys))) ∧
      Drains d (draw m attach) pending (sketch keys f)
        (sketch (run d n.successors bound pending keys)
          (finished n (run d n.successors bound pending keys))) := by
  induction bound generalizing pending keys f with
  | zero =>
    obtain rfl := List.length_eq_zero_iff.1 (Nat.le_zero.1 hsound.length_le)
    rw [build, h.eq_finished]
    exact ⟨rfl, .done _⟩
  | succ bound ih =>
    cases pending with
    | nil =>
      rw [build, h.eq_finished]
      exact ⟨rfl, .done _⟩
    | cons k pending =>
      have hdraw := draw_sketch hm hdraws hsound h
      obtain ⟨hbuild, hdrains⟩ := ih (hsound.step d) (h.step hsound d)
      refine ⟨?_, .next hdraw hdrains⟩
      rw [build_cons, hdraw, pure_bind]
      exact hbuild

theorem idle_underway (k : κ) : Underway n [k] [k] fun _ => .idle where
  blank := fun _ _ => rfl
  nodup := List.nodup_singleton k
  idle := fun _ _ => rfl
  drawn := fun _ hl hnot => absurd hl hnot

/-- The finished draft holds the table of the machine. -/
theorem sketch_finished (hstart : keys.head? = some n.start) :
    sketch keys (finished n keys) = ⟨keys, n.tabulate keys⟩ := by
  have hzero : keys.idxOf n.start = 0 := by
    cases keys with
    | nil => simp at hstart
    | cons k keys => simp [Option.some.inj hstart]
  rw [Machine.tabulate, hzero]
  rfl

/-- What is drawn from the start on is the table of the machine, whether or not the number
of rounds is bounded. -/
theorem build_start (hm : Reads m n (· ∈ univ)) (hdraws : ∀ k ∈ univ, Draws attach (n.edges k))
    (h : n.Confined bound univ) (d : Discipline) :
    (init n.start).build m attach d bound [n.start] =
        pure ⟨explore d n.successors bound [n.start], n.toDfa d bound⟩ ∧
      Drains d (draw m attach) [n.start] (init n.start)
        ⟨explore d n.successors bound [n.start], n.toDfa d bound⟩ := by
  have hsound := h.enough.sound
  obtain ⟨later, hcons⟩ := exists_explore_eq_cons d n.successors bound n.start
  have hrun : run d n.successors bound [n.start] [n.start] =
      explore d n.successors bound [n.start] := by
    rw [explore, distinct_singleton]
  have hfinal : sketch (explore d n.successors bound [n.start])
      (finished n (explore d n.successors bound [n.start])) =
        ⟨explore d n.successors bound [n.start], n.toDfa d bound⟩ :=
    sketch_finished (by simp [hcons])
  rw [distinct_singleton] at hsound
  have hbuild := build_sketch (d := d) hm hdraws hsound (idle_underway n.start)
  rw [hrun, hfinal] at hbuild
  exact hbuild

theorem build_eq (hm : Reads m n (· ∈ univ)) (hdraws : ∀ k ∈ univ, Draws attach (n.edges k))
    (h : n.Confined bound univ) (d : Discipline) :
    (init n.start).build m attach d bound [n.start] =
      pure ⟨explore d n.successors bound [n.start], n.toDfa d bound⟩ :=
  (build_start hm hdraws h d).1

/-- Drawing with insertion needs edges in ascending order only. -/
theorem build_insertRow_eq (hm : Reads m n (· ∈ univ)) (h : n.Confined bound univ)
    (d : Discipline) :
    (init n.start).build m Checked.insertRow d bound [n.start] =
      pure ⟨explore d n.successors bound [n.start], n.toDfa d bound⟩ :=
  build_eq hm (fun k hk => draws_insertRow (h.ascending k hk)) h d

/-- Drawing with insertion goes on until all keys that can be reached are drawn. -/
theorem drains_insertRow (hm : Reads m n (· ∈ univ)) (h : n.Confined bound univ)
    (d : Discipline) :
    Drains d (draw m Checked.insertRow) [n.start] (init n.start)
      ⟨explore d n.successors bound [n.start], n.toDfa d bound⟩ :=
  (build_start hm (fun k hk => draws_insertRow (h.ascending k hk)) h d).2

/-! ## Drawing depth first -/

variable {P : κ → Prop} {rank : κ → Nat} {height : Nat} {now : List κ}

/-- The keys met once the state of a key is drawn depth first. -/
def below (successors : κ → List κ) (height : Nat) (k : κ) (keys : List κ) : List κ :=
  match height with
  | 0 => keys
  | height + 1 => (successors k).foldl (preorder successors height) keys

theorem preorder_of_notMem {successors : κ → List κ} (hk : k ∉ keys) :
    preorder successors height keys k = below successors height k (keys ++ [k]) := by
  cases height <;> simp [preorder, below, hk]

/-- The states of the keys met in between are finished, and the state of `k` has the
given transitions. -/
def partway (n : Machine κ) (k : κ) (keys now : List κ) (f : κ → Dfa.State) (row : Row)
    (l : κ) : Dfa.State :=
  if l = k then ⟨n.accepting k, row⟩
  else if l ∈ now ∧ l ∉ keys then finished n now l else f l

@[simp] theorem partway_self (row : Row) : partway n k keys now f row k = ⟨n.accepting k, row⟩ :=
  if_pos rfl

@[simp] theorem update_partway (row row' : Row) :
    Function.update (partway n k keys now f row) k ⟨n.accepting k, row'⟩ =
      partway n k keys now f row' := by
  funext l
  by_cases hl : l = k
  · rw [hl, Function.update_self, partway_self]
  · rw [Function.update_of_ne hl, partway, partway, if_neg hl, if_neg hl]

theorem blank_partway (hf : Blank keys f) (hsub : keys ⊆ now) (hk : k ∈ keys) (row : Row) :
    Blank now (partway n k keys now f row) := by
  intro l hl
  have hlk : l ≠ k := by
    rintro rfl
    exact hl (hsub hk)
  rw [partway, if_neg hlk, if_neg fun h => hl h.1]
  exact hf l fun h => hl (hsub h)

/-- Drawing a key that is met on the way leaves the others as they are. -/
theorem partway_partway {next : List κ} {row : Row} (hsub : keys ⊆ now) (hk : k ∈ keys)
    (hclosed : ClosedUpTo n.successors keys now) (hnext : now <+: next) (hl : l ∉ now) :
    sketch next (partway n l (now ++ [l]) next (partway n k keys now f row) (n.row next l)) =
      sketch next (partway n k keys next f row) := by
  refine congrArg (fun states => (⟨next, ⟨0, states⟩⟩ : Draft κ))
    (List.map_congr_left fun j hj => ?_)
  by_cases hnow : j ∈ now
  · have hjl : j ≠ l := by
      rintro rfl
      exact hl hnow
    have hdone : ¬ (j ∈ next ∧ j ∉ now ++ [l]) := fun h => h.2 (List.mem_append_left _ hnow)
    rw [partway, if_neg hjl, if_neg hdone, partway, partway]
    by_cases hjk : j = k
    · rw [if_pos hjk, if_pos hjk]
    · rw [if_neg hjk, if_neg hjk]
      by_cases hkeys : j ∈ keys
      · rw [if_neg fun h => h.2 hkeys, if_neg fun h => h.2 hkeys]
      · obtain ⟨new, rfl⟩ := hnext
        rw [if_pos ⟨hnow, hkeys⟩, if_pos ⟨hj, hkeys⟩,
          finished_append ((hclosed j hnow).resolve_left hkeys)]
  · have hjk : j ≠ k := by
      rintro rfl
      exact hnow (hsub hk)
    have hright : partway n k keys next f row j = finished n next j := by
      rw [partway, if_neg hjk, if_pos ⟨hj, fun h => hnow (hsub h)⟩]
    rw [hright, partway]
    by_cases hjl : j = l
    · rw [if_pos hjl, hjl]
      rfl
    · rw [if_neg hjl, if_pos ⟨hj, by simp [hnow, hjl]⟩]

/-- Drawing a key depth first finishes its state and those of the keys below it. -/
def Expands (m : CheckedMachine κ) (attach : Row → Interval → Nat → Checked Row)
    (n : Machine κ) (height : Nat) (k : κ) : Prop :=
  ∀ (keys : List κ) (f : κ → Dfa.State), keys.Nodup → k ∈ keys → Blank keys f → f k = .idle →
    (sketch keys f).expand m attach height k =
      pure (sketch (below n.successors height k keys)
        (partway n k keys (below n.successors height k keys) f
          (n.row (below n.successors height k keys) k)))

/-- A target is met and drawn, unless it has a state. -/
theorem enter_partway (row : Row) (hsub : keys ⊆ now) (hk : k ∈ keys) (hf : Blank keys f)
    (hnodup : now.Nodup) (hclosed : ClosedUpTo n.successors keys now)
    (hexpand : Expands m attach n height l) :
    (if l ∈ (sketch now (partway n k keys now f row)).keys
      then pure (sketch now (partway n k keys now f row))
      else ((sketch now (partway n k keys now f row)).visit l).expand m attach height l) =
        pure (sketch (preorder n.successors height now l)
          (partway n k keys (preorder n.successors height now l) f row)) := by
  have hkeys : (sketch now (partway n k keys now f row)).keys = now := rfl
  have hblank := blank_partway (n := n) hf hsub hk row
  rw [hkeys]
  by_cases hl : l ∈ now
  · have hsame : preorder n.successors height now l = now := by
      cases height <;> simp [preorder, hl]
    rw [if_pos hl, hsame]
  · have hnew : fresh now [l] = [l] := by simp [fresh, hl]
    have hnodup' : (now ++ [l]).Nodup := hnew ▸ nodup_append_fresh hnodup [l]
    rw [if_neg hl, visit_sketch hblank, hnew,
      hexpand _ _ hnodup' (by simp) (blank_append hblank [l]) (hblank l hl),
      ← preorder_of_notMem hl,
      partway_partway hsub hk hclosed (preorder_extends _ _ _ hnodup l).1 hl]

/-- The rest of the edges of a key, after some were added and what is below them was
drawn. -/
theorem expand_rest (hdraws : Draws attach (pre ++ post))
    (hrank : ∀ k, ∀ l ∈ n.successors k, rank l < rank k) (hk : k ∈ keys) (hf : Blank keys f)
    (hexpand : ∀ e ∈ post, rank e.2 ≤ height ∧ Expands m attach n height e.2)
    (hsub : keys ⊆ now) (hnodup : now.Nodup) (hclosed : ClosedUpTo n.successors keys now)
    (hpre : ∀ e ∈ pre, e.2 ∈ now) {final : List κ}
    (hfinal : (post.map (·.2)).foldl (preorder n.successors height) now = final) :
    post.foldlM (fun x e =>
        (if e.2 ∈ x.keys then pure x else expand m attach height e.2 (x.visit e.2)) >>= fun x =>
          x.link attach k e.1 e.2)
      (sketch now (partway n k keys now f (coalesce (pre.map (numbered final))))) =
    pure (sketch final
      (partway n k keys final f (coalesce ((pre ++ post).map (numbered final))))) := by
  induction post generalizing pre now with
  | nil =>
    simp only [List.map_nil, List.foldl_nil] at hfinal
    simp [hfinal]
  | cons e post ih =>
    obtain ⟨hheight, hexpand'⟩ := hexpand e (by simp)
    obtain ⟨-, hnodup'⟩ := preorder_extends n.successors height now hnodup e.2
    obtain ⟨hsub', he, hclosed'⟩ := preorder_spec hrank hheight hclosed
    have hvisit : ∀ seen, ClosedUpTo n.successors keys seen → ∀ l ∈ (e :: post).map (·.2),
        seen ⊆ preorder n.successors height seen l ∧ l ∈ preorder n.successors height seen l ∧
          ClosedUpTo n.successors keys (preorder n.successors height seen l) := by
      intro seen hseen l hl
      obtain ⟨e', he', rfl⟩ := List.mem_map.1 hl
      exact preorder_spec hrank (hexpand e' he').1 hseen
    obtain ⟨hnow, htargets, -⟩ := ClosedUpTo.foldl hvisit hclosed
    rw [hfinal] at hnow htargets
    have hmem : ∀ e' ∈ pre ++ e :: post, e'.2 ∈ final := by
      intro e' he'
      rcases List.mem_append.1 he' with he' | he'
      · exact hnow (hpre e' he')
      · exact htargets (List.mem_map_of_mem he')
    rw [List.map_cons, List.foldl_cons] at hfinal
    have hnumber : (preorder n.successors height now e.2).idxOf e.2 = final.idxOf e.2 := by
      obtain ⟨later, hlater⟩ :=
        (foldl_extends (preorder_extends n.successors height) hnodup' (post.map (·.2))).1
      rw [← hfinal, ← hlater, List.idxOf_append_of_mem he]
    have hattach := hdraws final hmem pre e post rfl
    rw [← hnumber] at hattach
    have hlink := link_sketch (f := partway n k keys (preorder n.successors height now e.2) f
      (coalesce (pre.map (numbered final)))) hnodup' (hsub' (hsub hk)) he
      (by rw [partway_self]; exact hattach)
    rw [partway_self, update_partway] at hlink
    rw [List.foldlM_cons, enter_partway _ hsub hk hf hnodup hclosed hexpand', pure_bind, hlink,
      pure_bind, List.append_cons pre e post]
    refine ih (by rwa [← List.append_cons])
      (fun e' he' => hexpand e' (List.mem_cons_of_mem e he')) (List.Subset.trans hsub hsub')
      hnodup' hclosed' ?_ hfinal
    exact List.forall_mem_append.2
      ⟨fun e' he' => hsub' (hpre e' he'), List.forall_mem_singleton.2 he⟩

theorem expand_sketch (hm : Reads m n P) (hdraws : ∀ k, P k → Draws attach (n.edges k))
    (hstep : ∀ k, P k → ∀ l ∈ n.successors k, P l)
    (hrank : ∀ k, ∀ l ∈ n.successors k, rank l < rank k) (hk : P k) (hheight : rank k ≤ height) :
    Expands m attach n height k := by
  have hmark : ∀ {k : κ} {keys : List κ} {f : κ → Dfa.State}, keys.Nodup → k ∈ keys →
      f k = .idle → (sketch keys f).mark k (n.accepting k) =
        pure (sketch keys (partway n k keys keys f (coalesce []))) := by
    intro k keys f hnodup hmem hidle
    rw [mark_sketch hnodup hmem, hidle]
    refine congrArg (fun g => pure (sketch keys g)) (funext fun l => ?_)
    by_cases hl : l = k
    · rw [hl, Function.update_self, partway_self]
      rfl
    · rw [Function.update_of_ne hl, partway, if_neg hl, if_neg fun h => h.2 h.1]
  induction height generalizing k with
  | zero =>
    intro keys f hnodup hmem hf hidle
    have hnone : n.successors k = [] := List.eq_nil_iff_forall_not_mem.2 fun l hl => by
      have := hrank k l hl
      omega
    have hrow : n.row keys k = coalesce [] := by
      rw [Machine.row, List.map_eq_nil_iff.1 hnone, List.map_nil]
    simp only [expand, hm.accepting k hk, hmark hnodup hmem hidle, pure_bind, below, hrow]
  | succ height ih =>
    intro keys f hnodup hmem hf hidle
    have hexpand : ∀ e ∈ n.edges k, rank e.2 ≤ height ∧ Expands m attach n height e.2 := by
      intro e he
      have hl : e.2 ∈ n.successors k := List.mem_map_of_mem he
      have hlt := hrank k e.2 hl
      exact ⟨by omega, ih (hstep k hk e.2 hl) (by omega)⟩
    simp only [expand, hm.accepting k hk, hm.edges k hk, hmark hnodup hmem hidle, pure_bind]
    have hdraws' : Draws attach ([] ++ n.edges k) := hdraws k hk
    exact expand_rest hdraws' hrank hmem hf hexpand (List.Subset.refl keys) hnodup
      (fun l hl => .inl hl) (by simp) rfl

/-- The automaton that is drawn depth first from the start on is the table of the
machine. -/
theorem expand_eq (hm : Reads m n P) (hdraws : ∀ k, P k → Draws attach (n.edges k))
    (hstep : ∀ k, P k → ∀ l ∈ n.successors k, P l)
    (hrank : ∀ k, ∀ l ∈ n.successors k, rank l < rank k) (hstart : P n.start)
    (hheight : rank n.start ≤ height) :
    (init n.start).expand m attach height n.start =
      pure ⟨preorder n.successors height [] n.start,
        n.tabulate (preorder n.successors height [] n.start)⟩ := by
  have hbelow : below n.successors height n.start [n.start] =
      preorder n.successors height [] n.start := (preorder_of_notMem List.not_mem_nil).symm
  have hhead : (preorder n.successors height [] n.start).head? = some n.start := by
    rw [← hbelow]
    cases height with
    | zero => rfl
    | succ height =>
      obtain ⟨later, hlater⟩ := (foldl_extends (preorder_extends n.successors height)
        (List.nodup_singleton n.start) (n.successors n.start)).1
      rw [below, ← hlater]
      rfl
  rw [show init n.start = sketch [n.start] fun _ => .idle from rfl,
    expand_sketch hm hdraws hstep hrank hstart hheight [n.start] (fun _ => .idle)
      (List.nodup_singleton _) (List.mem_singleton_self _) (fun _ _ => rfl) rfl, hbelow,
    ← sketch_finished hhead]
  refine congrArg pure (congrArg (fun states => (⟨_, ⟨0, states⟩⟩ : Draft κ))
    (List.map_congr_left fun l hl => ?_))
  by_cases hstart : l = n.start
  · rw [hstart, partway_self]
    rfl
  · rw [partway, if_neg hstart, if_pos ⟨hl, by simpa using hstart⟩]

end Draft

end PatternAutomata
