import PatternAutomata.Checked.Descent
import PatternAutomata.Proofs.Cursors

/-!
# Productions go on

A place is reached from another if some characters are between them and its position counts
these (`Cursor.Reaches`); if there is at least one, the place advances (`Cursor.Advances`).
The steps on single characters advance, and runs of characters reach a place. Each production
is followed through its calls: if the productions that it calls stop where they may, so does
it. By induction on the depth, each production stops where it may whatever the depth is.

A production need not come to an end for this; where there is no answer, nothing is said.

## Main results

* `Descent.stops_step`: one step of a production.
* `Descent.stops_descend`: calls down to any depth.
-/

namespace PatternAutomata

namespace Cursor

variable {c d e : Cursor} {x : Char}

/-- Some characters, perhaps none, are between a place and a later one. -/
def Reaches (c d : Cursor) : Prop :=
  ∃ used, c.chars = used ++ d.chars ∧ d.position = c.position + used.length

/-- Some characters, at least one, are between a place and a later one. -/
def Advances (c d : Cursor) : Prop :=
  ∃ used, used ≠ [] ∧ c.chars = used ++ d.chars ∧ d.position = c.position + used.length

theorem Reaches.refl (c : Cursor) : c.Reaches c := ⟨[], rfl, rfl⟩

theorem Advances.toReaches (h : c.Advances d) : c.Reaches d := by
  obtain ⟨used, -, h⟩ := h
  exact ⟨used, h⟩

theorem Reaches.trans (h : c.Reaches d) (h' : d.Reaches e) : c.Reaches e := by
  obtain ⟨used, hchars, hposition⟩ := h
  obtain ⟨used', hchars', hposition'⟩ := h'
  refine ⟨used ++ used', by rw [hchars, hchars', List.append_assoc], ?_⟩
  rw [hposition', hposition, List.length_append, Nat.add_assoc]

theorem advances_iff : c.Advances d ↔ c.Reaches d ∧ d.chars.length < c.chars.length := by
  constructor
  · rintro ⟨used, hne, hchars, hposition⟩
    have := List.length_pos_iff.2 hne
    refine ⟨⟨used, hchars, hposition⟩, ?_⟩
    rw [hchars, List.length_append]
    omega
  · rintro ⟨⟨used, hchars, hposition⟩, hlt⟩
    refine ⟨used, ?_, hchars, hposition⟩
    rintro rfl
    rw [hchars] at hlt
    exact Nat.lt_irrefl _ hlt

theorem Reaches.length_le (h : c.Reaches d) : d.chars.length ≤ c.chars.length := by
  obtain ⟨used, hchars, -⟩ := h
  rw [hchars, List.length_append]
  omega

theorem Advances.trans_reaches (h : c.Advances d) (h' : d.Reaches e) : c.Advances e := by
  rw [advances_iff] at h ⊢
  exact ⟨h.1.trans h', Nat.lt_of_le_of_lt h'.length_le h.2⟩

theorem Reaches.trans_advances (h : c.Reaches d) (h' : d.Advances e) : c.Advances e := by
  rw [advances_iff] at h' ⊢
  exact ⟨h.trans h'.1, Nat.lt_of_lt_of_le h'.2 h.length_le⟩

theorem advances_of_step? (h : c.step? = some (x, d)) : c.Advances d := by
  obtain ⟨chars, position⟩ := c
  cases chars with
  | nil => cases h
  | cons y chars =>
      cases h
      exact ⟨[x], List.cons_ne_nil _ _, rfl, rfl⟩

theorem advances_of_pass? (h : c.pass? x = some d) : c.Advances d := by
  rw [pass?] at h
  cases hstep : c.step? with
  | none =>
      rw [hstep] at h
      cases h
  | some step =>
      obtain ⟨y, rest⟩ := step
      simp only [hstep] at h
      split at h
      · cases h
        exact advances_of_step? hstep
      · cases h

theorem reaches_pass?_getD (c : Cursor) (x : Char) : c.Reaches ((c.pass? x).getD c) := by
  cases h : c.pass? x with
  | none => exact .refl c
  | some d => exact (advances_of_pass? h).toReaches

theorem reaches_dropWhile (c : Cursor) (test : Char → Bool) : c.Reaches (c.dropWhile test) :=
  ⟨c.taken test, (c.run_spec test).1, rfl⟩

end Cursor

namespace Pattern

open Cursor

namespace Descent

variable {α β : Type} {c d : Cursor}

/-- Whenever there is an answer, it comes with a place that has the property. -/
def Ends (x : Descent (α × Cursor)) (P : Cursor → Prop) : Prop :=
  ∀ a d, x.run = some (.ok (a, d)) → P d

variable {P Q : Cursor → Prop} {x : Descent (α × Cursor)}

theorem ends_exhausted : Ends (exhausted : Descent (α × Cursor)) P := by
  intro a d h
  cases h

theorem ends_pure {a : α} (h : P d) : Ends (pure (a, d)) P := by
  intro a d h
  cases h
  assumption

theorem ends_throw {e : SyntaxError} : Ends (throw e : Descent (α × Cursor)) P := by
  intro a d h
  cases h

theorem Ends.bind {f : α × Cursor → Descent (β × Cursor)} (h : x.Ends P)
    (hnext : ∀ a d, P d → (f (a, d)).Ends Q) : Ends (x >>= f) Q := by
  intro b e hrun
  match hx : x.run with
  | none =>
      rw [ExceptT.run_bind, hx] at hrun
      cases hrun
  | some (.error fault) =>
      rw [ExceptT.run_bind, hx] at hrun
      cases hrun
  | some (.ok (a, d)) =>
      rw [ExceptT.run_bind, hx] at hrun
      exact hnext a d (h a d hx) b e hrun

theorem Ends.mono (h : x.Ends P) (hPQ : ∀ d, P d → Q d) : x.Ends Q :=
  fun a d hrun => hPQ d (h a d hrun)

/-! ## Characters and numbers -/

theorem advances_expect (c : Cursor) (y : Char) : (expect c y).Ends c.Advances := by
  rw [expect]
  cases h : c.pass? y with
  | none => exact ends_throw
  | some rest => exact ends_pure (advances_of_pass? h)

theorem reaches_integer (c : Cursor) : (integer c).Ends c.Reaches := by
  rw [integer]
  split_ifs
  · exact ends_throw
  · exact ends_pure (reaches_dropWhile c _)
  · exact ends_throw

theorem advances_classMember (c : Cursor) : (classMember c).Ends c.Advances := by
  rw [classMember]
  have hstart := reaches_pass?_getD c '\\'
  cases h : ((c.pass? '\\').getD c).step? with
  | none => exact ends_throw
  | some member => exact ends_pure (hstart.trans_advances (advances_of_step? h))

theorem reaches_repetition (c : Cursor) : (repetition c).Ends c.Reaches := by
  rw [repetition]
  refine (reaches_integer c).bind fun min rest hrest => ?_
  have hclose : ∀ {d}, c.Reaches d → ∀ bounds : Nat × Option Nat,
      Ends (expect d '}' >>= fun x => pure (bounds, x.2)) c.Reaches := fun hd bounds =>
    (advances_expect _ '}').bind fun _ e he => ends_pure (hd.trans he.toReaches)
  cases hpass : rest.pass? ',' with
  | none =>
      simp only [hpass]
      exact hclose hrest _
  | some comma =>
      have hcomma := hrest.trans (advances_of_pass? hpass).toReaches
      simp only [hpass]
      split_ifs
      · exact (reaches_integer comma).bind fun max d hd => hclose (hcomma.trans hd) _
      · exact hclose hcomma _

/-! ## Productions that call no other -/

theorem advances_classItem (c : Cursor) : (classItem c).Ends c.Advances := by
  rw [classItem]
  refine (advances_classMember c).bind fun lo rest hrest => ?_
  cases hpass : rest.pass? '-' with
  | none =>
      simp only [hpass]
      exact ends_pure hrest
  | some dash =>
      have hdash := hrest.trans_reaches (advances_of_pass? hpass).toReaches
      simp only [hpass]
      split_ifs
      · exact ends_pure hdash
      · exact (advances_classMember dash).bind fun hi d hd =>
          ends_pure (hdash.trans_reaches hd.toReaches)

theorem advances_angled (e : Extensions) (c : Cursor) : (angled e c).Ends c.Advances := by
  rw [angled]
  refine (advances_expect _ '>').bind fun _ rest hrest => ?_
  cases Parser.angleContent e (c.taken (· ≠ '>')) with
  | ok pattern => exact ends_pure ((reaches_dropWhile c _).trans_advances hrest)
  | error fault => exact ends_throw

theorem advances_escaped (alphabet : Option Alphabet) (c : Cursor) :
    (escaped alphabet c).Ends c.Advances := by
  rw [escaped]
  cases h : c.step? with
  | none => exact ends_throw
  | some step => exact ends_pure (advances_of_step? h)

theorem advances_quoted (c : Cursor) : (quoted c).Ends c.Advances := by
  rw [quoted]
  exact (advances_expect _ '"').bind fun _ rest hrest =>
    ends_pure ((reaches_dropWhile c _).trans_advances hrest)

end Descent

/-! ## Productions that call others -/

/-- Where a production can stop. A loop may stop at once, any other production reads at least
one character. -/
def Production.Stops (c d : Cursor) : Production → Prop
  | .quantifiers _ | .moreItems _ => c.Reaches d
  | _ => c.Advances d

namespace Descent

section Calls

variable {n : Notation} {call : Production → Cursor → Reading}
  (h : ∀ p c, (call p c).Ends fun d => p.Stops c d)
include h

theorem advances_alternatives (c : Cursor) : (alternatives call c).Ends c.Advances := by
  rw [alternatives]
  refine (h .conjunction c).bind fun first rest hrest => ?_
  cases hpass : rest.pass? '|' with
  | none =>
      simp only [hpass]
      exact ends_pure hrest
  | some bar =>
      have hbar := hrest.trans_reaches (advances_of_pass? hpass).toReaches
      simp only [hpass]
      exact (h .alternatives bar).bind fun second d hd =>
        ends_pure (hbar.trans_reaches hd.toReaches)

theorem advances_conjunction (c : Cursor) : (conjunction n call c).Ends c.Advances := by
  rw [conjunction]
  refine (h .sequence c).bind fun first rest hrest => ?_
  cases hpass : if n.extensions.intersection then rest.pass? '&' else none with
  | none =>
      simp only [hpass]
      exact ends_pure hrest
  | some mark =>
      have hmark : rest.Advances mark := advances_of_pass? (Option.ite_none_right_eq_some.1 hpass).2
      simp only [hpass]
      exact (h .conjunction mark).bind fun second d hd =>
        ends_pure (hrest.trans_reaches (hmark.trans_reaches hd.toReaches).toReaches)

theorem advances_sequence (c : Cursor) : (sequence n call c).Ends c.Advances := by
  rw [sequence]
  refine (h .quantified c).bind fun first rest hrest => ?_
  dsimp only
  split_ifs
  · exact ends_pure hrest
  · exact (h .sequence rest).bind fun second d hd => ends_pure (hrest.trans_reaches hd.toReaches)

theorem advances_quantified (c : Cursor) : (quantified call c).Ends c.Advances := by
  rw [quantified]
  exact (h .negated c).bind fun body rest hrest =>
    (h (.quantifiers body) rest).mono fun d hd => hrest.trans_reaches hd

theorem reaches_quantifiers (body : Pattern) (c : Cursor) :
    (quantifiers call body c).Ends c.Reaches := by
  have hmore : ∀ {rest}, c.Reaches rest → ∀ body,
      (call (.quantifiers body) rest).Ends c.Reaches := fun hrest body =>
    (h (.quantifiers body) _).mono fun d hd => hrest.trans hd
  rw [quantifiers]
  split
  · next hstep => exact hmore (advances_of_step? hstep).toReaches _
  · next hstep => exact hmore (advances_of_step? hstep).toReaches _
  · next hstep => exact hmore (advances_of_step? hstep).toReaches _
  · next rest hstep =>
    refine (reaches_repetition rest).bind fun bounds d hd => ?_
    obtain ⟨min, max?⟩ := bounds
    have hbounds := (advances_of_step? hstep).toReaches.trans hd
    cases max? with
    | none => exact hmore hbounds _
    | some max =>
        dsimp only
        split_ifs
        · exact ends_throw
        · exact hmore hbounds _
  · exact ends_pure (.refl c)

theorem advances_negated (c : Cursor) : (negated n call c).Ends c.Advances := by
  rw [negated]
  cases hpass : if n.extensions.complement then c.pass? '~' else none with
  | none => exact h .charClass c
  | some rest =>
      have hrest : c.Advances rest := advances_of_pass? (Option.ite_none_right_eq_some.1 hpass).2
      exact (h .negated rest).bind fun body d hd =>
        ends_pure (hrest.trans_reaches hd.toReaches)

theorem advances_charClass (c : Cursor) : (charClass call c).Ends c.Advances := by
  rw [charClass]
  cases hpass : c.pass? '[' with
  | none => exact h .simple c
  | some rest =>
      have hstart := (advances_of_pass? hpass).trans_reaches (reaches_pass?_getD rest '^')
      refine (h .classItems _).bind fun items close hclose => ?_
      exact (advances_expect close ']').bind fun _ d hd =>
        ends_pure ((hstart.trans_reaches hclose.toReaches).trans_reaches hd.toReaches)

theorem advances_simple (c : Cursor) : (simple n call c).Ends c.Advances := by
  rw [simple]
  cases hstep : c.step? with
  | none => exact ends_throw
  | some step =>
      obtain ⟨x, rest⟩ := step
      have hrest := advances_of_step? hstep
      have hcall : ∀ p : Production, (∀ d, p.Stops rest d → rest.Reaches d) →
          (call p rest).Ends c.Advances := fun p hp =>
        (h p rest).mono fun d hd => hrest.trans_reaches (hp d hd)
      dsimp only
      split_ifs
      · exact ends_pure hrest
      · exact ends_pure hrest
      · exact ends_pure hrest
      · exact hcall .quoted fun d hd => hd.toReaches
      · exact hcall .group fun d hd => hd.toReaches
      · exact hcall .angled fun d hd => hd.toReaches
      · exact hcall .escaped fun d hd => hd.toReaches
      · exact ends_pure hrest

theorem advances_classItems (c : Cursor) : (classItems call c).Ends c.Advances := by
  rw [classItems]
  exact (h .classItem c).bind fun item rest hrest =>
    (h (.moreItems item) rest).mono fun d hd => hrest.trans_reaches hd

theorem reaches_moreItems (items : Pattern) (c : Cursor) :
    (moreItems call items c).Ends c.Reaches := by
  rw [moreItems]
  split_ifs
  · exact ends_pure (.refl c)
  · exact (h .classItem c).bind fun item rest hrest =>
      (h (.moreItems _) rest).mono fun d hd => hrest.toReaches.trans hd

omit h in
theorem reaches_skipFlags (c : Cursor) : c.Reaches (skipFlags c) := by
  rw [skipFlags]
  cases hpass : c.pass? '?' with
  | none => exact .refl c
  | some rest =>
      exact ((advances_of_pass? hpass).toReaches.trans (reaches_dropWhile rest _)).trans
        (reaches_pass?_getD _ ':')

theorem advances_group (c : Cursor) : (group call c).Ends c.Advances := by
  rw [group]
  have hstart := reaches_skipFlags c
  dsimp only
  cases hpass : (skipFlags c).pass? ')' with
  | none =>
      refine (h .alternatives _).bind fun body rest hrest => ?_
      exact (advances_expect rest ')').bind fun _ d hd =>
        ends_pure (hstart.trans_advances (hrest.trans_reaches hd.toReaches))
  | some rest => exact ends_pure (hstart.trans_advances (advances_of_pass? hpass))

/-- A production stops where it may if the productions that it calls do. -/
theorem stops_step (p : Production) (c : Cursor) :
    (p.step n call c).Ends fun d => p.Stops c d := by
  cases p with
  | alternatives => exact advances_alternatives h c
  | conjunction => exact advances_conjunction h c
  | sequence => exact advances_sequence h c
  | quantified => exact advances_quantified h c
  | quantifiers body => exact reaches_quantifiers h body c
  | negated => exact advances_negated h c
  | charClass => exact advances_charClass h c
  | simple => exact advances_simple h c
  | classItems => exact advances_classItems h c
  | moreItems items => exact reaches_moreItems h items c
  | classItem => exact advances_classItem c
  | group => exact advances_group h c
  | angled => exact advances_angled _ c
  | escaped => exact advances_escaped _ c
  | quoted => exact advances_quoted c

end Calls

/-- Whatever the depth, each production stops where it may. -/
theorem stops_descend (n : Notation) (depth : Nat) (p : Production) (c : Cursor) :
    (descend n depth p c).Ends fun d => p.Stops c d := by
  induction depth generalizing p c with
  | zero => exact ends_exhausted
  | succ depth ih => exact stops_step ih p c

end Descent

end Pattern

end PatternAutomata
