import PatternAutomata.Checked.Calls
import PatternAutomata.Checked.Tables
import PatternAutomata.Proofs.CheckedCompilation

/-!
# Every automaton that can be had is canonical

The calls that make automata are followed one by one. If the operands of a call are
canonical and the states that it names exist, the call does what its definition says,
and what it gives is canonical again (`Call.Sound`). So all automata that can be had
are canonical, and the only call that ever fails on them is one that adds a transition
where there is one.

## Main results

* `Tables.invariant_iff`: the tables of canonical automata.
* `Call.sound`: what one call does.
* `Obtained.canonical`: what any number of calls leads to.
* `Call.representation_invariant`: the tables of automata, and the calls that fail.
-/

namespace PatternAutomata

open PatternAutomata.Interval

/-! ## The tables of an automaton -/

/-- In an ascending row only neighbours can touch. -/
theorem Row.joined_iff_isChain {row : Row} :
    row.Joined ↔ row.Ordered ∧
      row.IsChain fun u v => ¬ (u.on.Touches v.on ∧ u.target = v.target) := by
  constructor
  · intro h
    exact ⟨h.ordered, (List.Pairwise.imp (fun huv => mt And.symm huv.2) h).isChain⟩
  · rintro ⟨hordered, hchain⟩
    induction row with
    | nil => exact List.Pairwise.nil
    | cons u row ih =>
      obtain ⟨hbefore, htail⟩ := List.pairwise_cons.1 hordered
      refine List.pairwise_cons.2 ⟨fun v hv => ?_, ih htail hchain.tail⟩
      refine ⟨hbefore v.on (List.mem_map_of_mem hv), fun htouch => ?_⟩
      cases row with
      | nil => cases hv
      | cons w row =>
        rcases List.mem_cons.1 hv with rfl | hv
        · exact (List.isChain_cons_cons.1 hchain).1 htouch.symm
        · have huw : u.on.Before w.on := hbefore w.on (by simp)
          have hwv : w.on.Before v.on :=
            (List.pairwise_cons.1 htail).1 v.on (List.mem_map_of_mem hv)
          have huv := touches_iff.1 htouch.2
          rw [before_iff] at huw hwv
          have := u.on.bottom_le_top
          have := w.on.bottom_le_top
          have := v.on.bottom_le_top
          omega

namespace Tables

@[simp] theorem acceptingAt_tables (d : Dfa) (s : Nat) :
    d.tables.acceptingAt s = Checked.acceptingAt d s := by
  rw [acceptingAt, Checked.acceptingAt, Checked.stateAt, Checked.entry, Checked.entry, Dfa.tables,
    List.getElem?_map]
  cases d.states[s]? <;> rfl

@[simp] theorem rowAt_tables (d : Dfa) (s : Nat) : d.tables.rowAt s = Checked.rowAt d s := by
  rw [rowAt, Checked.rowAt, Checked.stateAt, Checked.entry, Checked.entry, Dfa.tables,
    List.getElem?_map]
  cases d.states[s]? <;> rfl

theorem addState_tables (d : Dfa) : d.tables.addState = d.addState.tables := by
  simp [Dfa.tables, Dfa.addState, addState, Dfa.State.idle]

/-- A change of one record is a change of one entry in the table of a field. -/
theorem map_modify {α β : Type} (field : α → β) (f : α → α) (g : β → β)
    (h : ∀ x, field (f x) = g (field x)) (xs : List α) (s : Nat) :
    (xs.modify s f).map field = (xs.map field).modify s g := by
  refine List.ext_getElem? fun t => ?_
  rw [List.getElem?_map, List.getElem?_modify, List.getElem?_modify, List.getElem?_map]
  cases xs[t]? with
  | none => rfl
  | some x => by_cases hst : s = t <;> simp [hst, h]

theorem tables_setAccepting (d : Dfa) (s : Nat) (b : Bool) :
    (d.setAccepting s b).tables = { d.tables with accepting := d.tables.accepting.set s b } := by
  let f : Dfa.State → Dfa.State := fun state => { state with accepting := b }
  have haccepting : (d.setAccepting s b).tables.accepting = d.tables.accepting.set s b := by
    rw [List.set_eq_modify]
    exact map_modify Dfa.State.accepting f (fun _ => b) (fun _ => rfl) d.states s
  have hrows : (d.setAccepting s b).tables.rows = d.tables.rows :=
    (map_modify Dfa.State.row f id (fun _ => rfl) d.states s).trans (List.modify_id s _)
  exact congrArg₂ (Tables.mk d.start) haccepting hrows

theorem tables_setRow (d : Dfa) (s : Nat) (row : Row) :
    (d.setRow s row).tables = { d.tables with rows := d.tables.rows.set s row } := by
  let f : Dfa.State → Dfa.State := fun state => { state with row }
  have haccepting : (d.setRow s row).tables.accepting = d.tables.accepting :=
    (map_modify Dfa.State.accepting f id (fun _ => rfl) d.states s).trans (List.modify_id s _)
  have hrows : (d.setRow s row).tables.rows = d.tables.rows.set s row := by
    rw [List.set_eq_modify]
    exact map_modify Dfa.State.row f (fun _ => row) (fun _ => rfl) d.states s
  exact congrArg₂ (Tables.mk d.start) haccepting hrows

/-- To mark a state means to mark it in the one table. -/
theorem mark_tables (d : Dfa) (s : Nat) (b : Bool) :
    d.tables.mark s b = Dfa.tables <$> Checked.mark d s b := by
  rw [mark, acceptingAt_tables, Checked.acceptingAt, Checked.mark, ← tables_setAccepting]
  cases Checked.stateAt d s <;> rfl

/-- To add a transition means to add it in the other table. -/
theorem link_tables (attach : Row → Interval → Nat → Checked Row) (d : Dfa) (s : Nat)
    (on : Interval) (t : Nat) :
    d.tables.link attach s on t = Dfa.tables <$> Checked.link attach d s on t := by
  rw [link, rowAt_tables, Checked.link, map_bind]
  refine bind_congr fun row => ?_
  rw [map_bind]
  refine bind_congr fun row => ?_
  exact congrArg pure (tables_setRow d s row).symm

theorem invariant_tables_iff {d : Dfa} : d.tables.Invariant ↔ d.Canonical := by
  have hsize : d.tables.rows.length = d.size := List.length_map _
  constructor
  · intro h
    have htarget := List.forall_mem_map.1 h.target_lt
    have hjoined : ∀ state ∈ d.states, state.row.Joined := by
      intro state hstate
      have hrow : state.row ∈ d.tables.rows := List.mem_map_of_mem hstate
      exact Row.joined_iff_isChain.2 ⟨List.pairwise_map.2 (h.ascending _ hrow), h.maximal _ hrow⟩
    rw [hsize] at htarget
    exact ⟨⟨hsize ▸ h.start_lt, htarget, fun state hstate => (hjoined state hstate).ordered⟩,
      hjoined⟩
  · intro h
    have hchain := fun state hstate => Row.joined_iff_isChain.1 (h.joined state hstate)
    refine ⟨?_, ?_, ?_, ?_, ?_, ?_⟩
    · rw [hsize]
      exact List.length_map _
    · rw [hsize]
      exact h.start_lt
    · rw [hsize]
      exact List.forall_mem_map.2 h.target_lt
    · exact fun row _ u _ => u.on.lo_le_hi
    · exact List.forall_mem_map.2 fun state hstate => List.pairwise_map.1 (hchain state hstate).1
    · exact List.forall_mem_map.2 fun state hstate => (hchain state hstate).2

/-- The invariant describes the tables of canonical automata. -/
theorem invariant_iff {t : Tables} : t.Invariant ↔ ∃ d : Dfa, d.Canonical ∧ d.tables = t := by
  constructor
  · intro h
    let d : Dfa := ⟨t.start, (t.accepting.zip t.rows).map fun p => ⟨p.1, p.2⟩⟩
    have haccepting : d.tables.accepting = t.accepting :=
      (List.map_map).trans (List.map_fst_zip (Nat.le_of_eq h.length_eq))
    have hrows : d.tables.rows = t.rows :=
      (List.map_map).trans (List.map_snd_zip (Nat.le_of_eq h.length_eq.symm))
    have htables : d.tables = t := congrArg₂ (Tables.mk t.start) haccepting hrows
    exact ⟨d, invariant_tables_iff.1 (htables ▸ h), htables⟩
  · rintro ⟨d, h, rfl⟩
    exact invariant_tables_iff.2 h

section Editing

variable {d : Dfa} {t : Tables} {e : Edit}

theorem overlaps_link_tables (d : Dfa) (s : Nat) (on : Interval) (target : Nat) :
    d.tables.Overlaps (.link s on target) ↔ ∃ u ∈ d.row s, u.on.Meets on := by
  rw [Overlaps, Dfa.tables, List.getElem?_map, Dfa.row]
  cases d.states[s]? <;> simp

/-- A transition is added to the tables unless the state has one on some of its
characters. -/
theorem edit_link (h : d.Canonical) {s target : Nat} (hs : s < d.size) (ht : target < d.size)
    (on : Interval) :
    (d.tables.Overlaps (.link s on target) ∧
      d.tables.edit (.link s on target) = throw (.misuse .overlappingTransitions)) ∨
    (¬ d.tables.Overlaps (.link s on target) ∧
      ∃ d' : Dfa, d'.Canonical ∧ d.tables.edit (.link s on target) = pure d'.tables) := by
  have hedit : d.tables.edit (.link s on target) =
      Dfa.tables <$> (d.addTransition s on target).mapError Fault.misuse := by
    rw [edit, link_tables, ← Checked.addTransition_eq h hs]
    rfl
  rw [hedit, overlaps_link_tables]
  rcases h.addTransition_cases on target with ⟨hmeets, herror⟩ | ⟨hclear, row, -, hok⟩
  · exact .inl ⟨hmeets, by rw [herror]; rfl⟩
  · exact .inr ⟨hclear, d.setRow s row, h.addTransition hs ht hok, by rw [hok]; rfl⟩

/-- A change that is not refused keeps the invariant. -/
theorem Invariant.edit (h : t.Invariant) (he : t.InRange e) :
    (t.Overlaps e ∧ t.edit e = throw (.misuse .overlappingTransitions)) ∨
    (¬ t.Overlaps e ∧ ∃ u : Tables, u.Invariant ∧ t.edit e = pure u) := by
  obtain ⟨d, hd, rfl⟩ := invariant_iff.1 h
  have hsize : d.tables.rows.length = d.size := List.length_map _
  cases e with
  | addState =>
    have hadded : d.addState.tables.Invariant := invariant_iff.2 ⟨_, hd.addState, rfl⟩
    exact .inr ⟨id, _, hadded, congrArg pure (addState_tables d)⟩
  | mark s b =>
    have hmarked := invariant_iff.2 ⟨_, hd.setAccepting s b, rfl⟩
    refine .inr ⟨id, _, hmarked, (mark_tables d s b).trans ?_⟩
    rw [Checked.mark_eq (hsize ▸ he)]
    rfl
  | link s on target =>
    rcases edit_link hd (hsize ▸ he.1) (hsize ▸ he.2) on with hrefused | ⟨hclear, d', hd', hlink⟩
    · exact .inl hrefused
    · exact .inr ⟨hclear, _, invariant_iff.2 ⟨d', hd', rfl⟩, hlink⟩

end Editing

end Tables

/-! ## Single calls -/

namespace Nfa

variable {a : Nfa} {e : Edit}

/-- A step keeps the transitions of every state in order. -/
theorem Tidy.edit (h : a.Tidy) (he : ∀ d, e = .embed d → d.WellFormed) : (a.edit e).Tidy := by
  cases e with
  | fresh => exact tidy_of_fans_eq h rfl
  | setStart s => exact tidy_of_fans_eq h rfl
  | addAccepting s => exact tidy_of_fans_eq h rfl
  | addSilent source target => exact tidy_of_fans_eq h rfl
  | addTransition source on target => exact tidy_addTransition h source on target
  | embed d => exact (embedded_embed h (he d rfl)).tidy

end Nfa

namespace Checked

theorem edit_eq {a : Nfa} (h : a.Tidy) {e : Nfa.Edit} (he : ∀ d, e = .embed d → d.WellFormed) :
    edit a e = pure (a.edit e) := by
  cases e with
  | addTransition source on target => exact connect_eq (h source) on target
  | embed d => rw [edit, embed_eq (h.tidyFrom _) (he d rfl), pure_bind]; rfl
  | fresh | setStart | addAccepting | addSilent => rfl

/-- An automaton put together from well-formed ones. -/
theorem foldlM_edit {edits : List Nfa.Edit} (h : ∀ d, .embed d ∈ edits → d.WellFormed) :
    edits.foldlM edit .empty = pure (edits.foldl Nfa.edit .empty) ∧
      (edits.foldl Nfa.edit .empty).Tidy := by
  refine foldlM_eq (fun a ha e he => ?_) Nfa.tidy_empty
  have hembed : ∀ d, e = .embed d → d.WellFormed := fun d hd => h d (hd ▸ he)
  exact ⟨edit_eq ha hembed, ha.edit hembed⟩

theorem settled_lift (x : Resolving Dfa) : settled (ExceptT.lift x) = pure x.outcome.1 := by
  rw [settled, ExceptT.run_lift, map_eq_pure_bind, Resolving.outcome, Resolving.run_bind,
    Resolving.outcome]
  cases x.run.run [] with
  | mk result asked => cases result <;> rfl

end Checked

namespace Call

variable {c : Call}

/-- The call does what its definition says, and an automaton that it gives is
canonical. -/
structure Sound (c : Call) : Prop where
  perform_eq : c.perform = c.result.mapError .misuse
  canonical : ∀ d, c.result = .ok (.ok d) → d.Canonical

theorem sound_of_eq {x : Checked Dfa} {d : Dfa} (hperform : c.perform = do return pure (← x))
    (hresult : c.result = pure (pure d)) (hx : x = pure d) (hd : d.Canonical) : c.Sound := by
  refine ⟨?_, fun e he => ?_⟩
  · rw [hperform, hx, hresult]
    rfl
  · rw [hresult] at he
    cases he
    exact hd

theorem sound_addTransition {d : Dfa} {s t : Nat} (h : d.Canonical) (hs : s < d.size)
    (ht : t < d.size) (on : Interval) : (addTransition d s on t).Sound := by
  have hadd := Checked.addTransition_eq h hs on t
  cases hresult : d.addTransition s on t with
  | error m =>
    refine ⟨?_, fun e he => ?_⟩
    · rw [perform, result, hadd, hresult]
      rfl
    · rw [result, hresult] at he
      cases he
  | ok e =>
    rw [hresult] at hadd
    refine sound_of_eq rfl ?_ hadd (h.addTransition hs ht hresult)
    rw [result, hresult]
    rfl

theorem sound_determinize {edits : List Nfa.Edit} (h : ∀ d, .embed d ∈ edits → d.WellFormed) :
    (determinize edits).Sound := by
  obtain ⟨hedits, htidy⟩ := Checked.foldlM_edit h
  refine sound_of_eq ?_ rfl (Checked.determinize_eq htidy) (Nfa.canonical_determinize htidy)
  rw [perform, hedits, pure_bind]

theorem sound_compile {env : Environment} (h : env.Supplies Dfa.Canonical)
    (alphabet : Option Alphabet) {p : Pattern} (hp : p.Bounded) :
    (compile alphabet env p).Sound := by
  refine ⟨?_, fun d hd => ?_⟩
  · rw [perform, Checked.compile_eq h hp, Checked.settled_lift]
    rfl
  · have hsupplies : env.Supplies Dfa.WellFormed :=
      ⟨fun name d hd => (h.table name d hd).toWellFormed,
        fun ask hask name d hd => (h.provider ask hask name d hd).toWellFormed⟩
    obtain ⟨e, he, -, rfl⟩ := Pattern.compile_spec hsupplies (Except.ok.inj hd)
    exact he.canonical_minimized

/-- One call on canonical automata, with states that exist. -/
theorem sound (h : ∀ d, c.Operand d → d.Canonical) (hrange : c.InRange) : c.Sound := by
  cases c with
  | new => exact sound_of_eq (x := pure .empty) rfl rfl rfl Dfa.canonical_empty
  | emptyWord => exact sound_of_eq rfl rfl Checked.emptyWord_eq Dfa.canonical_emptyWord
  | anyWord => exact sound_of_eq rfl rfl Checked.anyWord_eq Dfa.canonical_anyWord
  | ofRange lo hi =>
    exact sound_of_eq rfl rfl (Checked.ofRange_eq lo hi)
      (Dfa.canonical_ofSet (Dfa.canonical_ofBounds lo hi))
  | ofChars cs =>
    exact sound_of_eq rfl rfl (Checked.ofChars_eq cs)
      (Dfa.canonical_ofSet (Dfa.canonical_ofChars cs))
  | ofWord word => exact sound_of_eq rfl rfl (Checked.ofWord_eq word) (Dfa.canonical_ofWord word)
  | numerals a b width =>
    exact sound_of_eq rfl rfl (Checked.numerals_eq a b width)
      (Dfa.canonical_numerals a.toNat b.toNat width)
  | addState d => exact sound_of_eq (x := pure d.addState) rfl rfl rfl (h d rfl).addState
  | setAccepting d s b =>
    exact sound_of_eq rfl rfl (Checked.mark_eq hrange b) ((h d rfl).setAccepting s b)
  | addTransition d source on target =>
    exact sound_addTransition (h d rfl) hrange.1 hrange.2 on
  | union ds =>
    have hds : ∀ d ∈ ds, d.WellFormed := fun d hd => (h d hd).toWellFormed
    exact sound_of_eq rfl rfl (Checked.union_eq hds) (Dfa.canonical_union hds)
  | concat ds =>
    have hds : ∀ d ∈ ds, d.WellFormed := fun d hd => (h d hd).toWellFormed
    exact sound_of_eq rfl rfl (Checked.concat_eq hds) (Dfa.canonical_concat hds)
  | optional d =>
    have hd := (h d rfl).toWellFormed
    exact sound_of_eq rfl rfl (Checked.optional_eq hd) (Dfa.canonical_optional hd)
  | star d =>
    have hd := (h d rfl).toWellFormed
    exact sound_of_eq rfl rfl (Checked.star_eq hd) (Dfa.canonical_star hd)
  | atLeast d min =>
    have hd := (h d rfl).toWellFormed
    exact sound_of_eq rfl rfl (Checked.atLeast_eq hd min) (Dfa.canonical_atLeast hd min)
  | between d min max =>
    have hd := (h d rfl).toWellFormed
    exact sound_of_eq rfl rfl (Checked.between_eq hd min max) (Dfa.canonical_between hd min max)
  | inter a b =>
    have ha := (h a (.inl rfl)).toWellFormed
    have hb := (h b (.inr rfl)).toWellFormed
    exact sound_of_eq rfl rfl (Checked.inter_eq ha hb) (Dfa.canonical_inter ha hb)
  | complement d =>
    exact sound_of_eq rfl rfl (Checked.complement_eq (h d rfl).toWellFormed) (h d rfl).complement
  | minimized d =>
    have hd := (h d rfl).toWellFormed
    exact sound_of_eq rfl rfl (Checked.minimized_eq hd) hd.canonical_minimized
  | determinize edits =>
    exact sound_determinize fun d hd => (h d hd).toWellFormed
  | compile alphabet env p =>
    refine sound_compile ⟨fun name d hd => h d (.inl ⟨name, hd⟩), ?_⟩ alphabet hrange
    exact fun ask hask name d hd => h d (.inr ⟨ask, hask, name, hd⟩)

/-- The only call that is refused adds a transition where there is one. -/
theorem result_cases (h : ∀ d, c.Operand d → d.Canonical) :
    (c.Overlaps ∧ c.result = .error .overlappingTransitions) ∨
    (¬ c.Overlaps ∧ ∃ r, c.result = .ok r) := by
  cases c with
  | addTransition d source on target =>
    rcases (h d rfl).addTransition_cases (s := source) on target with
      ⟨hmeets, herror⟩ | ⟨hclear, row, -, hok⟩
    · exact .inl ⟨hmeets, by rw [result, herror]; rfl⟩
    · exact .inr ⟨hclear, .ok (d.setRow source row), by rw [result, hok]; rfl⟩
  | _ => exact .inr ⟨id, _, rfl⟩

end Call

/-- All automata that can be had are canonical. -/
theorem Obtained.canonical {d : Dfa} (h : Obtained d) : d.Canonical := by
  induction h with
  | @call c d _ hrange hperform ih =>
    obtain ⟨heq, hcanonical⟩ := Call.sound ih hrange
    refine hcanonical d ?_
    rw [hperform] at heq
    cases hresult : c.result with
    | error m => rw [hresult] at heq; cases heq
    | ok r => rw [hresult] at heq; cases heq; rfl

/-- Changes in place keep the invariant, whatever calls they follow. -/
theorem Tables.Laid.invariant {t : Tables} (h : t.Laid) : t.Invariant := by
  induction h with
  | obtained hd => exact invariant_tables_iff.2 hd.canonical
  | edit _ hrange hedit ih =>
    rcases ih.edit hrange with ⟨-, hrefused⟩ | ⟨-, u, hu, hdone⟩
    · rw [hrefused] at hedit
      cases hedit
    · rw [hdone] at hedit
      exact Except.ok.inj hedit ▸ hu

/-! ## Questions -/

namespace Checked

variable {d : Dfa} {s : Nat}

theorem acceptsFrom_eq (h : d.WellFormed) (hs : s < d.size) (word : List Char) :
    acceptsFrom d s word = pure (d.acceptsFrom s word) := by
  induction word generalizing s with
  | nil => exact acceptingAt_eq hs
  | cons c word ih =>
    rw [acceptsFrom, rowAt_eq hs, pure_bind, Dfa.acceptsFrom_cons, Dfa.step?]
    cases hstep : (d.row s).step? c with
    | none => rfl
    | some t => exact ih (h.step?_lt hstep)

theorem accepts_eq (h : d.WellFormed) (word : List Char) :
    accepts d word = pure (d.accepts word) :=
  acceptsFrom_eq h h.start_lt word

theorem isEmpty_eq (h : d.WellFormed) : isEmpty d = pure d.isEmpty := by
  have hmarks : d.reachable.mapM (acceptingAt d) = pure (d.reachable.map d.isAccepting) :=
    mapM_eq fun s hs => by
      obtain ⟨u, hu⟩ := h.mem_reachable_iff.1 hs
      exact acceptingAt_eq (h.stepAll?_lt h.start_lt hu)
  rw [isEmpty, reachable_eq h, pure_bind, hmarks, pure_bind, List.any_map]
  rfl

end Checked

namespace Call

/-- The tables of every automaton that can be had satisfy the invariant, also after
changes in place. A call on such automata, or a change of their tables, is refused if it
adds a transition where there is one; every other one comes out as its definition says,
without a fault, and so do questions about automata. -/
theorem representation_invariant :
    (∀ d, Obtained d → d.tables.Invariant) ∧
    (∀ c : Call, (∀ d, c.Operand d → Obtained d) → c.InRange →
      (c.Overlaps → c.perform = throw (.misuse .overlappingTransitions)) ∧
      (¬ c.Overlaps → ∃ r, c.perform = pure r ∧ c.result = pure r)) ∧
    (∀ d, Obtained d → Checked.isEmpty d = pure d.isEmpty ∧
      ∀ word, Checked.accepts d word = pure (d.accepts word)) ∧
    ∀ t : Tables, t.Laid → t.Invariant ∧ ∀ e, t.InRange e →
      (t.Overlaps e → t.edit e = throw (.misuse .overlappingTransitions)) ∧
      (¬ t.Overlaps e → ∃ u, t.edit e = pure u) := by
  refine ⟨fun d hd => Tables.invariant_tables_iff.2 hd.canonical, fun c hc hrange => ?_,
    fun d hd => ?_, fun t ht => ⟨ht.invariant, fun e hrange => ?_⟩⟩
  · have hoperands : ∀ d, c.Operand d → d.Canonical := fun d hd => (hc d hd).canonical
    have hperform := (sound hoperands hrange).perform_eq
    rcases result_cases hoperands with ⟨hoverlaps, hresult⟩ | ⟨hclear, r, hresult⟩
    · rw [hperform, hresult]
      exact ⟨fun _ => rfl, fun hclear => absurd hoverlaps hclear⟩
    · rw [hperform, hresult]
      exact ⟨fun hoverlaps => absurd hoverlaps hclear, fun _ => ⟨r, rfl, rfl⟩⟩
  · have hwellFormed := hd.canonical.toWellFormed
    exact ⟨Checked.isEmpty_eq hwellFormed, Checked.accepts_eq hwellFormed⟩
  · rcases ht.invariant.edit hrange with ⟨hoverlaps, hrefused⟩ | ⟨hclear, u, -, hdone⟩
    · exact ⟨fun _ => hrefused, fun hclear => absurd hoverlaps hclear⟩
    · exact ⟨fun hoverlaps => absurd hoverlaps hclear, fun _ => ⟨u, hdone⟩⟩

end Call

/-- Two states with a transition from the first to the second. -/
def Dfa.linked (on : Interval) : Dfa := ⟨0, [⟨false, [⟨on, 1⟩]⟩, .idle]⟩

theorem Obtained.linked (on : Interval) : Obtained (.linked on) := by
  let c : Call := .addTransition Dfa.empty.addState 0 on 1
  have hempty : Obtained .empty := .call (c := .new) (fun d hd => hd.elim) trivial rfl
  have hstates : Obtained Dfa.empty.addState :=
    .call (c := .addState .empty) (fun d hd => hd ▸ hempty) trivial rfl
  have hoperand : ∀ d, c.Operand d → Obtained d := fun d hd => hd ▸ hstates
  have hrange : c.InRange := ⟨by decide, by decide⟩
  exact .call hoperand hrange
    (Call.sound (fun d hd => (hoperand d hd).canonical) hrange).perform_eq

/-- A transition on `b` is refused beside one on `a, …, c`, also in place, and one on `d`
joins it. -/
theorem Call.representation_invariant_linked :
    let on : Interval := ⟨'a', 'c', by decide⟩
    Obtained (.linked on) ∧ (Dfa.linked on).tables.Invariant ∧
    (Call.addTransition (.linked on) 0 (.singleton 'b') 1).perform =
      throw (.misuse .overlappingTransitions) ∧
    (Dfa.linked on).tables.edit (.link 0 (.singleton 'b') 1) =
      throw (.misuse .overlappingTransitions) ∧
    (Call.addTransition (.linked on) 0 (.singleton 'd') 1).perform =
      pure (pure (.linked ⟨'a', 'd', by decide⟩)) := by
  intro on
  obtain ⟨htables, hcalls, -, hlaid⟩ := Call.representation_invariant
  have hlinked := Obtained.linked on
  have hcall := fun i => hcalls (.addTransition (.linked on) 0 i 1) (fun d hd => hd ▸ hlinked)
    ⟨by decide, by decide⟩
  have hplace := (hlaid _ (.obtained hlinked)).2 (.link 0 (.singleton 'b') 1)
    ⟨by decide, by decide⟩
  have hmeets : ∃ u ∈ (Dfa.linked on).row 0, u.on.Meets (.singleton 'b') :=
    ⟨⟨on, 1⟩, List.mem_singleton_self _, 'b', by decide, by decide⟩
  refine ⟨hlinked, htables _ hlinked, (hcall (.singleton 'b')).1 hmeets,
    hplace.1 ⟨_, rfl, hmeets⟩, ?_⟩
  · have hclear : ¬ (Call.addTransition (.linked on) 0 (.singleton 'd') 1).Overlaps := by
      rintro ⟨t, ht, c, hct, hcd⟩
      obtain rfl := List.mem_singleton.1 ht
      rw [mem_singleton.1 hcd] at hct
      exact absurd hct (by decide)
    obtain ⟨r, hperform, hresult⟩ := (hcall (.singleton 'd')).2 hclear
    rw [hperform, ← Except.ok.inj hresult]
    rfl

end PatternAutomata
