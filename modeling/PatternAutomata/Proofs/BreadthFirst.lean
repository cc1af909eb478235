import Mathlib.Data.List.Basic
import PatternAutomata.Proofs.Explorations

/-!
# Breadth-first order

With a queue, nodes are looked at in the order in which they were met. The nodes that
have been looked at are therefore a beginning of the list of nodes met, and that list is
what is met among the successors of its own members, one after the other
(`Enough.explore_queue`). The equation holds the order of discovery: a node that is listed
before another occurs before every occurrence of the other among the successors
(`mem_of_idxOf_lt`).

## Main results

* `Sound.run_queue`: the equation, as an invariant of a run.
* `mem_of_idxOf_lt`: an earlier node occurs earlier.
-/

namespace PatternAutomata.Exploration

variable {κ : Type u} [DecidableEq κ] {successors : κ → List κ} {univ : List κ}

/-! ## Meeting some nodes and then others -/

theorem fresh_append (seen ks ls : List κ) :
    fresh seen (ks ++ ls) = fresh seen ks ++ fresh (seen ++ ks) ls := by
  induction ks generalizing seen with
  | nil => simp [fresh]
  | cons k ks ih =>
      by_cases hk : k ∈ seen
      · have hseen : ∀ l, l ∈ seen ++ ks ↔ l ∈ seen ++ k :: ks := by grind
        rw [List.cons_append, fresh, fresh, if_pos hk, if_pos hk, ih, fresh_congr hseen]
      · have hseen : ∀ l, l ∈ k :: seen ++ ks ↔ l ∈ seen ++ k :: ks := by grind
        rw [List.cons_append, fresh, fresh, if_neg hk, if_neg hk, ih, fresh_congr hseen,
          List.cons_append]

theorem distinct_append (ks ls : List κ) :
    distinct (ks ++ ls) = distinct ks ++ fresh (distinct ks) ls := by
  have hmem : ∀ l, l ∈ [] ++ ks ↔ l ∈ distinct ks := by simp
  rw [distinct, fresh_append, fresh_congr hmem, distinct]

/-! ## Runs with a queue -/

/-- The nodes met are what is met among the starts and the successors of the nodes looked
at. When no node waits any more, all of them have been looked at. -/
theorem Sound.run_queue {bound : Nat} {starts pending seen : List κ} (looked : List κ)
    (h : Sound successors univ bound pending seen) (hseen : seen = looked ++ pending)
    (hmet : seen = distinct (starts ++ looked.flatMap successors)) :
    run .queue successors bound pending seen =
      distinct (starts ++ (run .queue successors bound pending seen).flatMap successors) := by
  have hdone : pending = [] →
      seen = distinct (starts ++ seen.flatMap successors) := by
    intro hnil
    rw [hnil, List.append_nil] at hseen
    rw [hseen] at hmet ⊢
    exact hmet
  induction bound generalizing looked pending seen with
  | zero => exact hdone (List.length_eq_zero_iff.1 (Nat.le_zero.1 h.length_le))
  | succ bound ih =>
      cases pending with
      | nil => exact hdone rfl
      | cons k pending =>
          have hseen' : seen ++ fresh seen (successors k) =
              (looked ++ [k]) ++ (pending ++ fresh seen (successors k)) := by
            rw [hseen]
            simp
          have hmet' : seen ++ fresh seen (successors k) =
              distinct (starts ++ (looked ++ [k]).flatMap successors) := by
            rw [List.flatMap_append, ← List.append_assoc, distinct_append, ← hmet,
              List.flatMap_singleton]
          refine ih (looked ++ [k]) (h.step .queue) hseen' hmet' fun hnil => ?_
          -- nothing waits after the step, so all nodes have been looked at
          have hlooked : seen ++ fresh seen (successors k) = looked ++ [k] := by
            rw [hseen', show pending ++ fresh seen (successors k) = [] from hnil, List.append_nil]
          rw [hlooked] at hmet' ⊢
          exact hmet'

/-- The list of an exploration with a queue is what is met among the starts and the
successors of its own members, in order. -/
theorem Enough.explore_queue {bound : Nat} {starts : List κ}
    (h : Enough successors bound starts univ) :
    explore .queue successors bound starts =
      distinct (starts ++ (explore .queue successors bound starts).flatMap successors) :=
  h.sound.run_queue [] rfl (by simp)

/-! ## First occurrences -/

/-- A node that is listed before another occurs before every occurrence of the other. -/
theorem mem_of_idxOf_lt {before after : List κ} {k l : κ}
    (h : (distinct (before ++ l :: after)).idxOf k < (distinct (before ++ l :: after)).idxOf l) :
    k ∈ before := by
  rw [distinct_append] at h
  have hle : (distinct before ++ fresh (distinct before) (l :: after)).idxOf l ≤
      (distinct before).length := by
    by_cases hl : l ∈ distinct before
    · rw [List.idxOf_append_of_mem hl]
      exact List.idxOf_le_length
    · rw [List.idxOf_append_of_notMem hl, fresh, if_neg hl, List.idxOf_cons_self]
      exact Nat.le_refl _
  by_contra hk
  rw [List.idxOf_append_of_notMem (fun hmem => hk (mem_distinct.1 hmem))] at h
  omega

end PatternAutomata.Exploration
