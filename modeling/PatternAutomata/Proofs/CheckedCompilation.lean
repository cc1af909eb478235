import PatternAutomata.Checked.Compilation
import PatternAutomata.Proofs.CheckedNumerals
import PatternAutomata.Proofs.Compilation

/-!
# Compilation comes out without a fault

If the environment hands out canonical automata, the parts of every piece are
canonical, and the operations on pieces come out without a fault. So a compilation
that looks up names by calls that can fail, and automata by calls that can go wrong,
ends like the one that only looks up names.

## Main results

* `lift_bind_eq`: going on from a value that a computation yields.
* `compile_eq`: compilation.
-/

namespace PatternAutomata

open Resolving

namespace Resolving

variable {α β : Type}

/-- What follows a computation matters only for the values that it yields. -/
theorem bind_congr_of_yields {x : Resolving α} {f g : α → Resolving β}
    (h : ∀ asked a asked', Yields x asked a asked' → f a = g a) : x >>= f = x >>= g := by
  refine ExceptT.ext (StateT.ext fun asked => ?_)
  rw [run_bind, run_bind]
  cases hx : x.run.run asked with
  | mk result between =>
    cases result with
    | error e => rfl
    | ok a => exact congrArg (fun y : Resolving β => y.run.run between) (h asked a between hx)

theorem lift_bind_eq {x : Resolving α} {f : α → Checked.Compiling β} {g : α → Resolving β}
    (h : ∀ asked a asked', Yields x asked a asked' → f a = ExceptT.lift (g a)) :
    ExceptT.lift x >>= f = ExceptT.lift (x >>= g) := by
  refine ExceptT.ext ?_
  rw [ExceptT.run_bind_lift, ExceptT.run_lift, map_bind]
  refine bind_congr_of_yields fun asked a asked' ha => ?_
  rw [h asked a asked' ha, ExceptT.run_lift]

end Resolving

namespace Pattern.Piece

/-- All automata of a piece are canonical. -/
def Canonical (piece : Piece) : Prop := ∀ d ∈ piece.parts, d.Canonical

variable {piece first second : Piece} {d : Dfa}

@[simp] theorem canonical_single : (single d).Canonical ↔ d.Canonical := by
  simp [Canonical, parts]

theorem Canonical.wellFormed (h : piece.Canonical) : piece.WellFormed :=
  fun d hd => (h d hd).toWellFormed

theorem Canonical.close (h : piece.Canonical) : piece.close.Canonical := by
  cases piece with
  | alternatives ds => exact (Dfa.canonical_union h.wellFormed).toWellFormed.canonical_minimized
  | sequence ds => exact (Dfa.canonical_concat h.wellFormed).toWellFormed.canonical_minimized
  | single d => exact canonical_single.1 h

theorem Canonical.toAlternatives (h : piece.Canonical) :
    ∀ d ∈ piece.toAlternatives, d.Canonical := by
  cases piece with
  | alternatives ds => exact h
  | sequence ds => exact canonical_single.2 h.close
  | single d => exact h

theorem Canonical.toSequence (h : piece.Canonical) : ∀ d ∈ piece.toSequence, d.Canonical := by
  cases piece with
  | alternatives ds => exact canonical_single.2 h.close
  | sequence ds => exact h
  | single d => exact h

end Pattern.Piece

namespace Checked

open Pattern (Piece)

variable {piece first second : Piece} {alphabet : Option Alphabet} {env : Environment}

theorem close_eq (h : piece.WellFormed) : close piece = pure piece.close := by
  cases piece with
  | alternatives ds =>
    have hds : ∀ d ∈ ds, d.WellFormed := h
    rw [close, union_eq hds, pure_bind, minimized_eq (Dfa.canonical_union hds).toWellFormed]
    rfl
  | sequence ds =>
    have hds : ∀ d ∈ ds, d.WellFormed := h
    rw [close, concat_eq hds, pure_bind, minimized_eq (Dfa.canonical_concat hds).toWellFormed]
    rfl
  | single d => rfl

theorem toAlternatives_eq (h : piece.WellFormed) :
    toAlternatives piece = pure piece.toAlternatives := by
  cases piece with
  | alternatives ds => rfl
  | sequence ds => exact congrArg (· >>= fun d => pure [d]) (close_eq h)
  | single d => rfl

theorem toSequence_eq (h : piece.WellFormed) : toSequence piece = pure piece.toSequence := by
  cases piece with
  | alternatives ds => exact congrArg (· >>= fun d => pure [d]) (close_eq h)
  | sequence ds => rfl
  | single d => rfl

theorem joinAlternatives_eq (h : first.Canonical) (h' : second.Canonical) :
    joinAlternatives first second =
      pure (.alternatives (first.toAlternatives ++ second.toAlternatives)) := by
  rw [joinAlternatives, toAlternatives_eq h.wellFormed, pure_bind,
    toAlternatives_eq h'.wellFormed, pure_bind]

theorem joinSequence_eq (h : first.Canonical) (h' : second.Canonical) :
    joinSequence first second = pure (.sequence (first.toSequence ++ second.toSequence)) := by
  rw [joinSequence, toSequence_eq h.wellFormed, pure_bind, toSequence_eq h'.wellFormed, pure_bind]

/-- An operation that comes out without a fault does so on pieces. -/
theorem apply_eq {f : Dfa → Checked Dfa} {g : Dfa → Dfa}
    (h : ∀ d : Dfa, d.Canonical → f d = pure (g d) ∧ (g d).WellFormed) (hpiece : piece.Canonical) :
    apply f piece = pure (piece.apply g) ∧ (piece.apply g).Canonical := by
  obtain ⟨hf, hg⟩ := h piece.close hpiece.close
  refine ⟨?_, Piece.canonical_single.2 hg.canonical_minimized⟩
  rw [apply, close_eq hpiece.wellFormed, pure_bind, hf, pure_bind, minimized_eq hg]
  rfl

theorem apply_inter_eq (h : first.Canonical) (h' : second.Canonical) :
    apply₂ inter first second =
        pure (.single (first.close.inter second.close).minimized) ∧
      (Piece.single (first.close.inter second.close).minimized).Canonical := by
  have hfirst := h.close.toWellFormed
  have hsecond := h'.close.toWellFormed
  have hinter := (Dfa.canonical_inter hfirst hsecond).toWellFormed
  refine ⟨?_, Piece.canonical_single.2 hinter.canonical_minimized⟩
  rw [apply₂, close_eq h.wellFormed, pure_bind, close_eq h'.wellFormed, pure_bind,
    inter_eq hfirst hsecond, pure_bind, minimized_eq hinter, pure_bind]

theorem anyCharDfa_eq (alphabet : Option Alphabet) :
    anyCharDfa alphabet = pure (Pattern.anyCharDfa alphabet) ∧
      (Pattern.anyCharDfa alphabet).Canonical := by
  cases alphabet with
  | none =>
    let i := Alphabet.printableRange
    exact ⟨ofRange_eq i.lo i.hi, Dfa.canonical_ofSet (Dfa.canonical_ofBounds i.lo i.hi)⟩
  | some a => exact ⟨ofChars_eq _, Dfa.canonical_ofSet (Dfa.canonical_ofChars _)⟩

/-- What a pattern is compiled to, with and without checks. -/
def Agrees (x : Compiling Piece) (y : Resolving Piece) : Prop :=
  x = ExceptT.lift y ∧ ∀ asked piece asked', Yields y asked piece asked' → piece.Canonical

theorem agrees_of_eq {x : Compiling Piece} (hx : x = pure piece) (h : piece.Canonical) :
    Agrees x (pure piece) := by
  refine ⟨hx, fun asked piece' asked' hy => ?_⟩
  obtain ⟨rfl, -⟩ := yields_pure_iff.1 hy
  exact h

theorem agrees_pure {x : Checked Piece} (hx : x = pure piece) (h : piece.Canonical) :
    Agrees (liftM x) (pure piece) :=
  agrees_of_eq (congrArg liftM hx) h

theorem agrees_bind {x : Compiling Piece} {y : Resolving Piece} (hxy : Agrees x y)
    {f : Piece → Compiling Piece} {g : Piece → Resolving Piece}
    (h : ∀ piece : Piece, piece.Canonical → Agrees (f piece) (g piece)) :
    Agrees (x >>= f) (y >>= g) := by
  obtain ⟨rfl, hy⟩ := hxy
  refine ⟨lift_bind_eq fun asked a asked' ha => (h a (hy asked a asked' ha)).1,
    fun asked piece asked' hpiece => ?_⟩
  obtain ⟨a, between, ha, hpiece⟩ := yields_bind_iff.1 hpiece
  exact (h a (hy asked a between ha)).2 between piece asked' hpiece

/-- A leaf whose automaton comes out without a fault. -/
theorem agrees_single {x : Checked Dfa} {d : Dfa} (hx : x = pure d) (h : d.Canonical) :
    Agrees (do return .single (← x)) (pure (.single d)) :=
  agrees_of_eq (by rw [hx]; rfl) (Piece.canonical_single.2 h)

/-- A form of one part. -/
theorem agrees_apply {x : Compiling Piece} {y : Resolving Piece} (hxy : Agrees x y)
    {f : Dfa → Checked Dfa} {g : Dfa → Dfa}
    (h : ∀ d : Dfa, d.Canonical → f d = pure (g d) ∧ (g d).WellFormed) :
    Agrees (do apply f (← x)) (do return (← y).apply g) :=
  agrees_bind hxy fun _ hpiece => agrees_pure (apply_eq h hpiece).1 (apply_eq h hpiece).2

theorem agrees_compilePiece (h : env.Supplies Dfa.Canonical) {p : Pattern} (hp : p.Bounded) :
    Agrees (compilePiece alphabet env p) (Pattern.compilePiece alphabet env p) := by
  induction p with
  | union a b iha ihb =>
    refine agrees_bind (iha hp.2.1) fun first hfirst =>
      agrees_bind (ihb hp.2.2) fun second hsecond =>
      agrees_pure (joinAlternatives_eq hfirst hsecond) fun d hd => ?_
    exact (List.mem_append.1 hd).elim (hfirst.toAlternatives d) (hsecond.toAlternatives d)
  | concat a b iha ihb =>
    refine agrees_bind (iha hp.2.1) fun first hfirst =>
      agrees_bind (ihb hp.2.2) fun second hsecond =>
      agrees_pure (joinSequence_eq hfirst hsecond) fun d hd => ?_
    exact (List.mem_append.1 hd).elim (hfirst.toSequence d) (hsecond.toSequence d)
  | inter a b iha ihb =>
    exact agrees_bind (iha hp.2.1) fun first hfirst =>
      agrees_bind (ihb hp.2.2) fun second hsecond =>
      agrees_pure (apply_inter_eq hfirst hsecond).1 (apply_inter_eq hfirst hsecond).2
  | optional a ih =>
    exact agrees_apply (ih hp.2) fun d hd => ⟨optional_eq hd.toWellFormed,
      (Dfa.canonical_optional hd.toWellFormed).toWellFormed⟩
  | star a ih =>
    exact agrees_apply (ih hp.2) fun d hd => ⟨star_eq hd.toWellFormed,
      (Dfa.canonical_star hd.toWellFormed).toWellFormed⟩
  | atLeast min a ih =>
    exact agrees_apply (ih hp.2) fun d hd => ⟨atLeast_eq hd.toWellFormed min,
      (Dfa.canonical_atLeast hd.toWellFormed min).toWellFormed⟩
  | between min max a ih =>
    exact agrees_apply (ih hp.2) fun d hd => ⟨between_eq hd.toWellFormed min max,
      (Dfa.canonical_between hd.toWellFormed min max).toWellFormed⟩
  | complement a ih =>
    exact agrees_apply (ih hp.2) fun d hd =>
      ⟨complement_eq hd.toWellFormed, hd.toWellFormed.complement⟩
  | char c =>
    exact agrees_single (ofRange_eq c c) (Dfa.canonical_ofSet (Dfa.canonical_ofBounds c c))
  | range lo hi =>
    exact agrees_single (ofRange_eq lo hi) (Dfa.canonical_ofSet (Dfa.canonical_ofBounds lo hi))
  | anyChar => exact agrees_single (anyCharDfa_eq alphabet).1 (anyCharDfa_eq alphabet).2
  | anyWord => exact agrees_single anyWord_eq Dfa.canonical_anyWord
  | empty => exact agrees_single rfl Dfa.canonical_empty
  | literal text => exact agrees_single (ofWord_eq text) (Dfa.canonical_ofWord text)
  | reference name =>
    refine ⟨lift_bind_eq (x := env.resolve name) fun _ _ _ _ => rfl,
      fun asked piece asked' hpiece => ?_⟩
    obtain ⟨d, between, hd, hpiece⟩ := yields_bind_iff.1 hpiece
    obtain ⟨rfl, -⟩ := yields_pure_iff.1 hpiece
    exact Piece.canonical_single.2 (h.of_finds (Environment.finds_of_yields hd))
  | numerals lo hi width =>
    obtain ⟨hlo, hhi⟩ : lo < Cursor.integerLimit ∧ hi < Cursor.integerLimit := hp
    have hnumerals : numerals (.ofNat lo) (.ofNat hi) width =
        pure (.numerals lo hi width) := by
      rw [numerals_eq, UInt32.toNat_ofNat_of_lt' hlo, UInt32.toNat_ofNat_of_lt' hhi]
    exact agrees_single hnumerals (Dfa.canonical_numerals lo hi width)

/-- With an environment of canonical automata, a compilation meets no fault if the bounds of
ranges are words. -/
theorem compile_eq (h : env.Supplies Dfa.Canonical) {p : Pattern} (hp : p.Bounded) :
    compile alphabet env p = ExceptT.lift (p.compile alphabet env) := by
  have hagrees : Agrees (compilePiece alphabet env p) (Pattern.compilePiece alphabet env p) :=
    agrees_compilePiece h hp
  obtain ⟨hpiece, hcanonical⟩ := hagrees
  rw [compile, hpiece, Pattern.compile]
  refine lift_bind_eq fun asked piece asked' hy => ?_
  have hpiece := hcanonical asked piece asked' hy
  rw [close_eq hpiece.wellFormed]
  exact congrArg (fun d : Checked Dfa => (liftM d : Compiling Dfa))
    (minimized_eq hpiece.close.toWellFormed)

end Checked

end PatternAutomata
