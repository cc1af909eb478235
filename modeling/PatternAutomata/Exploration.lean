/-!
# Exploring a graph and listing its nodes in order of discovery

A graph is given by the successors of a node. An exploration keeps the nodes it
has met, in order of discovery, and those of them whose successors it has not
looked at yet. Which of these is next, the youngest or the oldest, is the
`Discipline`: it decides the order of discovery and nothing else.

Constructions on automata use the list twice: it tells which nodes there are, and
the index of a node in it is the number of the node's state.

`preorder` is the depth-first variant for graphs of bounded height, where all
nodes below a successor are discovered before the next successor.

## Main results

* `mem_fresh`, `nodup_fresh`: what counts as newly met.
* `nodup_explore`: no node is listed twice.
-/

namespace PatternAutomata.Exploration

/-- Which of the nodes that wait is looked at next. -/
inductive Discipline where
  /-- The one that was met last. -/
  | stack
  /-- The one that was met first. -/
  | queue
deriving DecidableEq, Repr

/-- Lets newly met nodes wait with the others; the next one is in front. -/
def Discipline.enqueue {κ : Type u} (d : Discipline) (new pending : List κ) : List κ :=
  match d with
  | .stack => new.reverse ++ pending
  | .queue => pending ++ new

@[simp] theorem mem_enqueue {κ : Type u} {d : Discipline} {new pending : List κ} {k : κ} :
    k ∈ d.enqueue new pending ↔ k ∈ new ∨ k ∈ pending := by
  cases d with
  | stack => simp [Discipline.enqueue]
  | queue => simp [Discipline.enqueue, or_comm]

variable {κ : Type u} [DecidableEq κ]

/-- The nodes of a list that are not among those met before, each once, in order
of first occurrence. -/
def fresh (seen : List κ) : List κ → List κ
  | [] => []
  | k :: ks => if k ∈ seen then fresh seen ks else k :: fresh (k :: seen) ks

/-- The members of a list in order of first occurrence. -/
def distinct (ks : List κ) : List κ := fresh [] ks

@[simp] theorem mem_fresh {seen ks : List κ} {k : κ} : k ∈ fresh seen ks ↔ k ∈ ks ∧ k ∉ seen := by
  induction ks generalizing seen with
  | nil => simp [fresh]
  | cons l ks ih =>
    by_cases hl : l ∈ seen
    · simp only [fresh, hl, if_true, ih, List.mem_cons]
      grind
    · simp only [fresh, hl, if_false, List.mem_cons, ih]
      grind

theorem nodup_fresh (seen ks : List κ) : (fresh seen ks).Nodup := by
  induction ks generalizing seen with
  | nil => simp [fresh]
  | cons l ks ih =>
    by_cases hl : l ∈ seen
    · simpa only [fresh, hl, if_true] using ih seen
    · simp only [fresh, hl, if_false, List.nodup_cons, mem_fresh]
      exact ⟨by simp, ih (l :: seen)⟩

@[simp] theorem mem_distinct {ks : List κ} {k : κ} : k ∈ distinct ks ↔ k ∈ ks := by
  simp [distinct]

theorem nodup_distinct (ks : List κ) : (distinct ks).Nodup := nodup_fresh [] ks

/-- Looks at the waiting nodes, at most `bound` of them, and extends the list of
the nodes met. -/
def run (d : Discipline) (successors : κ → List κ) : Nat → List κ → List κ → List κ
  | 0, _, seen => seen
  | _ + 1, [], seen => seen
  | bound + 1, k :: pending, seen =>
    let new := fresh seen (successors k)
    run d successors bound (d.enqueue new pending) (seen ++ new)

/-- The nodes that can be reached from some nodes, in order of discovery. The
bound has to be at least the number of these nodes. -/
def explore (d : Discipline) (successors : κ → List κ) (bound : Nat)
    (starts : List κ) : List κ :=
  run d successors bound (distinct starts) (distinct starts)

/-- An exploration forgets no node. -/
theorem subset_run {d : Discipline} {successors : κ → List κ} {bound : Nat}
    {pending seen : List κ} {k : κ} (hk : k ∈ seen) :
    k ∈ run d successors bound pending seen := by
  induction bound generalizing pending seen with
  | zero => exact hk
  | succ bound ih =>
    cases pending with
    | nil => exact hk
    | cons l pending => exact ih (List.mem_append_left _ hk)

/-- An exploration lists each node once. -/
theorem nodup_run {d : Discipline} {successors : κ → List κ} {bound : Nat}
    {pending seen : List κ} (h : seen.Nodup) :
    (run d successors bound pending seen).Nodup := by
  induction bound generalizing pending seen with
  | zero => exact h
  | succ bound ih =>
    cases pending with
    | nil => exact h
    | cons l pending =>
      refine ih (List.nodup_append.2 ⟨h, nodup_fresh _ _, ?_⟩)
      rintro a ha b hb rfl
      exact (mem_fresh.1 hb).2 ha

theorem nodup_explore (d : Discipline) (successors : κ → List κ) (bound : Nat)
    (starts : List κ) : (explore d successors bound starts).Nodup :=
  nodup_run (nodup_distinct starts)

/-- The nodes met so far and those met from `k` on along at most `height` edges,
depth first. -/
def preorder (successors : κ → List κ) : Nat → List κ → κ → List κ
  | 0, seen, k => if k ∈ seen then seen else seen ++ [k]
  | height + 1, seen, k =>
    if k ∈ seen then seen
    else (successors k).foldl (preorder successors height) (seen ++ [k])

end PatternAutomata.Exploration
