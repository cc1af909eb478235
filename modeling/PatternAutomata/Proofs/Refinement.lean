import Mathlib.Data.Finset.Card
import Mathlib.Data.List.Dedup
import PatternAutomata.Dfa.Minimization
import PatternAutomata.Proofs.Tabulation
import PatternAutomata.Proofs.Usefulness

/-!
# Refinement of partitions

A round of refinement keeps states together if they were together before and if each
character leads them to states that were together. States that accept the same words
are never separated (`Coarse`). When a round separates nothing, the states that are
together agree on acceptance and on where characters lead, class by class
(`Congruence`), so they accept the same words.

That such a round comes is a matter of counting: a round that separates something
adds a class, and there are no more classes than states.

## Main results

* `classOf_refine_iff`: what one round does.
* `Trim.congruence_settle`: the last round leaves a congruence that is as coarse as possible.
* `Trim.classOf_partition_iff`: the classes in terms of words.
-/

namespace PatternAutomata.Dfa

open Exploration

variable {d : Dfa} {p : Partition} {s t : Nat}

/-- The states accept the same words. -/
def SameWords (d : Dfa) (s t : Nat) : Prop := ∀ w, d.acceptsFrom s w = d.acceptsFrom t w

/-- Each character leads the two states to the same class, or both nowhere. -/
def SameSteps (d : Dfa) (p : Partition) (s t : Nat) : Prop :=
  ∀ c, (d.step? s c).map p.classOf = (d.step? t c).map p.classOf

/-- The partition gives each state a class, according to acceptance at least, and does
not separate states that accept the same words. -/
structure Coarse (d : Dfa) (p : Partition) : Prop where
  length_eq : p.length = d.size
  accepting : ∀ s < d.size, ∀ t < d.size, p.classOf s = p.classOf t →
    d.isAccepting s = d.isAccepting t
  sameWords : ∀ s < d.size, ∀ t < d.size, d.SameWords s t → p.classOf s = p.classOf t

/-- States of one class go to the same classes. -/
structure Congruence (d : Dfa) (p : Partition) : Prop extends d.Coarse p where
  steps : ∀ s < d.size, ∀ t < d.size, p.classOf s = p.classOf t → d.SameSteps p s t

/-! ## Numbering by first occurrence -/

theorem classOf_eq_getElem (hs : s < p.length) : p.classOf s = p[s] := by
  rw [Partition.classOf, List.getD_eq_getElem?_getD, List.getElem?_eq_getElem hs,
    Option.getD_some]

theorem classOf_mem (hs : s < p.length) : p.classOf s ∈ p := by
  rw [classOf_eq_getElem hs]
  exact List.getElem_mem hs

theorem count_eq_card (p : Partition) : p.count = p.toFinset.card := by
  have hset : p.toFinset = (distinct p).toFinset := by
    ext k
    rw [List.mem_toFinset, List.mem_toFinset, mem_distinct]
  rw [hset, List.toFinset_card_of_nodup (nodup_distinct p), Partition.count]

theorem toFinset_eq_image (h : p.length = d.size) :
    p.toFinset = (Finset.range d.size).image p.classOf := by
  ext k
  rw [List.mem_toFinset, Finset.mem_image, List.mem_iff_getElem]
  constructor
  · intro hk
    obtain ⟨s, hs, rfl⟩ := hk
    exact ⟨s, Finset.mem_range.2 (h ▸ hs), classOf_eq_getElem hs⟩
  · intro hk
    obtain ⟨s, hs, rfl⟩ := hk
    have hs' : s < p.length := h ▸ Finset.mem_range.1 hs
    exact ⟨s, hs', (classOf_eq_getElem hs').symm⟩

theorem count_eq_card_image (h : p.length = d.size) :
    p.count = ((Finset.range d.size).image p.classOf).card := by
  rw [count_eq_card, toFinset_eq_image h]

theorem count_le_size (h : p.length = d.size) : p.count ≤ d.size := by
  rw [count_eq_card_image h]
  exact Finset.card_image_le.trans (Finset.card_range _).le

/-- If one labelling of a finite set is finer than another, it has as many labels at
least, and if it has no more, the two separate the same members. -/
theorem card_image_le_of_finer {f g : Nat → Nat} {S : Finset Nat}
    (hfiner : ∀ s ∈ S, ∀ t ∈ S, f s = f t → g s = g t) :
    (S.image g).card ≤ (S.image f).card ∧
    ((S.image f).card = (S.image g).card →
      ∀ s ∈ S, ∀ t ∈ S, g s = g t → f s = f t) := by
  -- Both images are projections of the set of pairs of labels; the first projection
  -- is injective as `f` is finer.
  let pairs := S.image fun s => (f s, g s)
  have hfst : pairs.image Prod.fst = S.image f := by
    rw [Finset.image_image]
    rfl
  have hsnd : pairs.image Prod.snd = S.image g := by
    rw [Finset.image_image]
    rfl
  have hinj : Set.InjOn Prod.fst (pairs : Set (Nat × Nat)) := by
    intro a ha b hb hab
    obtain ⟨s, hs, rfl⟩ := Finset.mem_image.1 ha
    obtain ⟨t, ht, rfl⟩ := Finset.mem_image.1 hb
    exact Prod.ext hab (hfiner s hs t ht hab)
  have hcard : pairs.card = (S.image f).card := by
    rw [← hfst, Finset.card_image_of_injOn hinj]
  constructor
  · rw [← hsnd, ← hcard]
    exact Finset.card_image_le
  · intro heq s hs t ht hst
    have hinj' : Set.InjOn Prod.snd (pairs : Set (Nat × Nat)) := by
      apply Finset.injOn_of_card_image_eq
      rw [hsnd, hcard, heq]
    have hpair := hinj' (Finset.mem_coe.2 (Finset.mem_image_of_mem _ hs))
      (Finset.mem_coe.2 (Finset.mem_image_of_mem _ ht)) hst
    exact congrArg Prod.fst hpair

/-! ## One round -/

theorem ordered_labelled (h : d.WellFormed) (p : Partition) (s : Nat) :
    Row.Ordered ((d.row s).map fun t => ⟨t.on, p.classOf t.target⟩) :=
  Row.ordered_relabel p.classOf |>.2 (h.ordered_row s)

theorem WellFormed.step?_signature (h : d.WellFormed) (p : Partition) (s : Nat) (c : Char) :
    (d.signature p s).step? c = (d.step? s c).map p.classOf := by
  rw [signature, Row.step?_coalesce (ordered_labelled h p s)]
  exact Row.step?_relabel p.classOf (d.row s) c

theorem WellFormed.joined_signature (h : d.WellFormed) (p : Partition) (s : Nat) :
    (d.signature p s).Joined :=
  Row.joined_coalesce (ordered_labelled h p s)

/-- However rows are cut, signatures are equal if steps lead to the same classes. -/
theorem WellFormed.signature_eq_iff (h : d.WellFormed) (p : Partition) (s t : Nat) :
    d.signature p s = d.signature p t ↔ d.SameSteps p s t := by
  constructor
  · intro heq c
    rw [← h.step?_signature, ← h.step?_signature, heq]
  · intro hsteps
    apply (h.joined_signature p s).eq_of_step?_eq (h.joined_signature p t)
    intro c
    rw [h.step?_signature, h.step?_signature, hsteps c]

@[simp] theorem length_refine (d : Dfa) (p : Partition) : (d.refine p).length = d.size := by
  simp [refine]

theorem classOf_refine (hs : s < d.size) :
    (d.refine p).classOf s =
      (distinct ((List.range d.size).map (d.distinction p))).idxOf (d.distinction p s) := by
  rw [classOf_eq_getElem (by rwa [length_refine])]
  simp [refine]

/-- A round gives as many classes as there are states that it tells apart. -/
theorem count_refine (d : Dfa) (p : Partition) :
    (d.refine p).count = (distinct ((List.range d.size).map (d.distinction p))).length := by
  let keys := (List.range d.size).map (d.distinction p)
  have hinj : ∀ k ∈ [] ++ keys, ∀ l ∈ [] ++ keys,
      (distinct keys).idxOf k = (distinct keys).idxOf l → k = l := fun k hk l _ heq =>
    (List.idxOf_inj (mem_distinct.2 hk)).1 heq
  rw [Partition.count, refine, distinct, ← List.map_nil, fresh_map [] keys hinj, List.length_map]
  rfl

/-- A round keeps two states together if they were together and go to the same
classes. -/
theorem WellFormed.classOf_refine_iff (h : d.WellFormed) (hs : s < d.size) (ht : t < d.size) :
    (d.refine p).classOf s = (d.refine p).classOf t ↔
      p.classOf s = p.classOf t ∧ d.SameSteps p s t := by
  have hmem : ∀ u < d.size, d.distinction p u ∈
      distinct ((List.range d.size).map (d.distinction p)) := by
    intro u hu
    exact mem_distinct.2 (List.mem_map_of_mem (List.mem_range.2 hu))
  rw [classOf_refine hs, classOf_refine ht, List.idxOf_inj (hmem s hs), distinction,
    distinction, Prod.mk.injEq, h.signature_eq_iff]

/-- A round separates no states that accept the same words. -/
theorem Trim.coarse_refine (h : d.Trim) (hp : d.Coarse p) : d.Coarse (d.refine p) := by
  refine
    { length_eq := length_refine d p
      accepting := ?_
      sameWords := ?_ }
  · intro s hs t ht heq
    exact hp.accepting s hs t ht ((h.classOf_refine_iff hs ht).1 heq).1
  · intro s hs t ht hsame
    refine (h.classOf_refine_iff hs ht).2 ⟨hp.sameWords s hs t ht hsame, ?_⟩
    intro c
    -- As all states are productive, one of the two has a step only if the other has.
    have hstep : ∀ {s t : Nat}, d.SameWords s t → ∀ {s' : Nat}, d.step? s c = some s' →
        ∃ t', d.step? t c = some t' := by
      intro s t hsame s' hs'
      obtain ⟨v, hv⟩ := h.productive s' (h.step?_lt hs')
      have hw : d.acceptsFrom t (c :: v) = true := by
        rw [← hsame]
        exact acceptsFrom_cons_iff.2 ⟨s', hs', hv⟩
      obtain ⟨t', ht', -⟩ := acceptsFrom_cons_iff.1 hw
      exact ⟨t', ht'⟩
    cases hs' : d.step? s c with
    | none =>
        cases ht' : d.step? t c with
        | none => rfl
        | some t' =>
            obtain ⟨s', hs''⟩ := hstep (fun w => (hsame w).symm) ht'
            rw [hs'] at hs''
            cases hs''
    | some s' =>
        obtain ⟨t', ht'⟩ := hstep hsame hs'
        have hsame' : d.SameWords s' t' := by
          intro w
          have hw := hsame (c :: w)
          rw [acceptsFrom_cons, acceptsFrom_cons, hs', ht'] at hw
          exact hw
        rw [ht', Option.map_some, Option.map_some,
          hp.sameWords s' (h.step?_lt hs') t' (h.step?_lt ht') hsame']

/-- A round that adds no class leaves a congruence. -/
theorem Trim.congruence_refine (h : d.Trim) (hp : d.Coarse p)
    (hcount : (d.refine p).count = p.count) : d.Congruence (d.refine p) := by
  have hsame : ∀ s < d.size, ∀ t < d.size, p.classOf s = p.classOf t →
      (d.refine p).classOf s = (d.refine p).classOf t := by
    have hfiner := card_image_le_of_finer (f := (d.refine p).classOf) (g := p.classOf)
      (S := Finset.range d.size) fun s hs t ht heq =>
        ((h.classOf_refine_iff (Finset.mem_range.1 hs) (Finset.mem_range.1 ht)).1 heq).1
    rw [count_eq_card_image (length_refine d p), count_eq_card_image hp.length_eq] at hcount
    intro s hs t ht
    exact hfiner.2 hcount s (Finset.mem_range.2 hs) t (Finset.mem_range.2 ht)
  refine { h.coarse_refine hp with steps := ?_ }
  intro s hs t ht heq c
  have hsteps := ((h.classOf_refine_iff hs ht).1 heq).2 c
  cases hs' : d.step? s c with
  | none =>
      rw [hs', Option.map_none, eq_comm, Option.map_eq_none_iff] at hsteps
      rw [hsteps]
  | some s' =>
      rw [hs', Option.map_some, eq_comm, Option.map_eq_some_iff] at hsteps
      obtain ⟨t', ht', hclass⟩ := hsteps
      rw [ht', Option.map_some, Option.map_some,
        hsame t' (h.step?_lt ht') s' (h.step?_lt hs') hclass]

theorem Trim.count_le_refine (h : d.Trim) (hp : d.Coarse p) :
    p.count ≤ (d.refine p).count := by
  rw [count_eq_card_image (length_refine d p), count_eq_card_image hp.length_eq]
  refine (card_image_le_of_finer ?_).1
  intro s hs t ht heq
  exact ((h.classOf_refine_iff (Finset.mem_range.1 hs) (Finset.mem_range.1 ht)).1 heq).1

/-! ## All rounds -/

/-- The last round leaves a congruence, if the rounds left are no fewer than the
classes that may still be added. -/
theorem Trim.congruence_settle (h : d.Trim) {rounds count : Nat} (hp : d.Coarse p)
    (hcount : count = p.count) (hrounds : d.size < rounds + count) :
    d.Congruence (d.settle rounds count p) := by
  induction rounds generalizing count p with
  | zero =>
      have hle := count_le_size hp.length_eq
      omega
  | succ rounds ih =>
      rw [settle]
      by_cases hstop : (d.refine p).count = count
      · rw [if_pos hstop]
        exact h.congruence_refine hp (hstop.trans hcount)
      · rw [if_neg hstop]
        have hle := h.count_le_refine hp
        exact ih (h.coarse_refine hp) rfl (by omega)

theorem classOf_byAcceptance (hs : s < d.size) :
    d.byAcceptance.classOf s = (d.isAccepting s).toNat := by
  have hlt : s < d.byAcceptance.length := by
    rw [byAcceptance, List.length_map]
    exact hs
  rw [classOf_eq_getElem hlt,
    isAccepting_eq_of_getElem? (List.getElem?_eq_getElem (show s < d.states.length from hs))]
  simp [byAcceptance]

theorem coarse_byAcceptance (d : Dfa) : d.Coarse d.byAcceptance := by
  refine
    { length_eq := by simp [byAcceptance, size]
      accepting := ?_
      sameWords := ?_ }
  · intro s hs t ht heq
    rw [classOf_byAcceptance hs, classOf_byAcceptance ht] at heq
    rw [Bool.eq_iff_iff, ← Bool.toNat_eq_one, heq, Bool.toNat_eq_one]
  · intro s hs t ht hsame
    have hnil := hsame []
    rw [acceptsFrom_nil, acceptsFrom_nil] at hnil
    rw [classOf_byAcceptance hs, classOf_byAcceptance ht, hnil]

/-- The first round is compared with no class at all, so it is never the last one. -/
theorem WellFormed.count_refine_ne_zero (h : d.WellFormed) (p : Partition) :
    (d.refine p).count ≠ 0 := by
  have hmem : (d.refine p).classOf d.start ∈ d.refine p :=
    classOf_mem (by rw [length_refine]; exact h.start_lt)
  rw [Partition.count]
  exact (List.length_pos_of_mem (mem_distinct.2 hmem)).ne'

/-- Refinement ends with a congruence. -/
theorem Trim.congruence_partition (h : d.Trim) : d.Congruence d.partition := by
  have hp := d.coarse_byAcceptance
  have hne := h.count_refine_ne_zero d.byAcceptance
  rw [partition, settle, if_neg hne]
  exact h.congruence_settle (h.coarse_refine hp) rfl (by omega)

theorem Congruence.acceptsFrom_eq (hp : d.Congruence p) (h : d.WellFormed) (hs : s < d.size)
    (ht : t < d.size) (heq : p.classOf s = p.classOf t) : d.SameWords s t := by
  intro w
  induction w generalizing s t with
  | nil =>
      rw [acceptsFrom_nil, acceptsFrom_nil]
      exact hp.accepting s hs t ht heq
  | cons c w ih =>
      have hstep := hp.steps s hs t ht heq c
      rw [acceptsFrom_cons, acceptsFrom_cons]
      cases hs' : d.step? s c with
      | none =>
          rw [hs', Option.map_none, eq_comm, Option.map_eq_none_iff] at hstep
          rw [hstep]
      | some s' =>
          rw [hs', Option.map_some, eq_comm, Option.map_eq_some_iff] at hstep
          obtain ⟨t', ht', hclass⟩ := hstep
          rw [ht']
          exact ih (h.step?_lt hs') (h.step?_lt ht') hclass.symm

/-- Two states are in one class if and only if they accept the same words. -/
theorem Trim.classOf_partition_iff (h : d.Trim) (hs : s < d.size) (ht : t < d.size) :
    d.partition.classOf s = d.partition.classOf t ↔ d.SameWords s t := by
  have hp := h.congruence_partition
  exact ⟨hp.acceptsFrom_eq h.toWellFormed hs ht, hp.sameWords s hs t ht⟩

end PatternAutomata.Dfa
