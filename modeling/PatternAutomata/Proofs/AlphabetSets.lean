import Mathlib.Data.List.Destutter
import PatternAutomata.Proofs.Classes
import PatternAutomata.Proofs.CodePoints
import PatternAutomata.Proofs.PrintableAlphabet

/-!
# The alphabet is a set

An alphabet keeps its characters in the order in which they were given, and this order goes
into everything that is made of them: the characters of a class escape, the automaton of
`.`, the universe of a complement and the white space. In all these places a set is built of
them, and a set of intervals has one form, whatever the order of its insertions. So two
lists of the same characters are two names for one alphabet.

The tree of a class escape needs no set. Its runs are read off the sorted characters, and
each step of the loop over them comes to the insertion of a character above all others
(`extendRuns_bounds`).

## Main results

* `ofCharsByRuns_eq`: classes by runs and classes by sets.
* `alphabet_as_set`: reading, used characters and compiling for two lists of the same
  characters.
-/

namespace PatternAutomata

open PatternAutomata.Interval

/-! ## Classes by runs of characters

The pattern for some characters can be had without a set. The characters are sorted, one
that equals the one before it is dropped, and those that are left are gone through from the
least one on. A character right after the last run makes the run longer, any other one
begins a run of its own. What counts is the next code point, so no run goes on after the
surrogate block. -/

namespace Pattern

/-- The characters in ascending order, each of them once. -/
def sorted (cs : List Char) : List Char :=
  (cs.mergeSort fun c d => decide (c ≤ d)).destutter (· ≠ ·)

/-- Adds a character to runs that are before it. The last run comes first. -/
def extendRuns : List (Char × Char) → Char → List (Char × Char)
  | [], c => [(c, c)]
  | (lo, hi) :: runs, c =>
    if hi.toNat + 1 = c.toNat then (lo, c) :: runs else (c, c) :: (lo, hi) :: runs

/-- The runs of consecutive code points in ascending characters. -/
def runs (cs : List Char) : List (Char × Char) := (cs.foldl extendRuns []).reverse

/-- One of the characters of a run. -/
def ofRun (run : Char × Char) : Pattern :=
  if run.1 = run.2 then char run.1 else range run.1 run.2

/-- One of the given characters, by runs. -/
def ofCharsByRuns (cs : List Char) : Pattern := unionAll ((runs (sorted cs)).map ofRun)

end Pattern

/-! ## A character above a set -/

namespace IntervalSet

variable {s : IntervalSet} {c : Char}

/-- Lists of the same characters have one set. -/
theorem ofChars_congr {x y : List Char} (h : ∀ c, c ∈ x ↔ c ∈ y) : ofChars x = ofChars y :=
  eq_of_mem_iff (canonical_ofIntervals _) (canonical_ofIntervals _) fun c => by
    simp [h]

/-- A character above a set goes into the last interval if that ends right before it, and
becomes an interval of its own otherwise. -/
theorem insert_above (h : s.Canonical) (hlt : ∀ d ∈ s, d < c) :
    ((∀ i ∈ s.intervals, i.top + 1 < c.ordinal.val) ∧
      (s.insert (.singleton c)).intervals = s.intervals ++ [.singleton c]) ∨
    ∃ pre i j, s.intervals = pre ++ [i] ∧ i.top + 1 = c.ordinal.val ∧
      j.lo = i.lo ∧ j.hi = c ∧ (s.insert (.singleton c)).intervals = pre ++ [j] := by
  have htop : ∀ i ∈ s.intervals, i.top < c.ordinal.val := fun i hi =>
    Scalar.lt_iff.1 (hlt i.hi ⟨i, hi, i.hi_mem⟩)
  obtain ⟨pre, mid, post, hs, hins, hpre, hmid, hpost⟩ := insert_split h (.singleton c)
  have hnone : post = [] := by
    cases post with
    | nil => rfl
    | cons x post =>
      have hx := htop x (by simp [hs])
      have habove : c.ordinal.val + 1 < x.bottom := hpost x List.mem_cons_self
      have := x.bottom_le_top
      omega
  subst hnone
  rw [List.append_nil] at hs hins
  cases mid with
  | nil =>
    left
    rw [List.append_nil] at hs
    rw [hs]
    exact ⟨fun i hi => hpre i hi, hins⟩
  | cons i mid =>
    -- two intervals near one character would touch each other
    have hend : ∀ x ∈ i :: mid, x.top + 1 = c.ordinal.val := fun x hx => by
      have hx' := htop x (by rw [hs]; exact List.mem_append_right pre hx)
      have hnear : c.ordinal.val ≤ x.top + 1 := (hmid x hx).2
      omega
    have hlast : mid = [] := by
      cases mid with
      | nil => rfl
      | cons x mid =>
        have hclear : (pre ++ i :: x :: mid).Pairwise Clear := hs ▸ apart_iff.1 h
        have hix : i.top + 1 < x.bottom :=
          (List.pairwise_cons.1 (List.pairwise_append.1 hclear).2.1).1 x List.mem_cons_self
        have hi := hend i List.mem_cons_self
        have hx := hend x (by simp)
        have := x.bottom_le_top
        omega
    subst hlast
    have hi := hend i List.mem_cons_self
    have := i.bottom_le_top
    refine .inr ⟨pre, i, (Interval.singleton c).hull i, hs, hi, ?_, ?_, hins⟩
    · refine Scalar.eq_iff.2 ((bottom_hull _ _).trans (Nat.min_eq_right ?_))
      show i.bottom ≤ c.ordinal.val
      omega
    · refine Scalar.eq_iff.2 ((top_hull _ _).trans (Nat.max_eq_left ?_))
      show i.top ≤ c.ordinal.val
      omega

end IntervalSet

/-! ## Classes by runs -/

namespace Pattern

variable {s : IntervalSet} {i : Interval} {c : Char}

theorem ordinal_lastBelowSurrogates : lastBelowSurrogates.ordinal.val = 0xd7ff := by decide

theorem ordinal_firstAboveSurrogates : firstAboveSurrogates.ordinal.val = 0xd800 := by decide

theorem lesser_eq_right {c d : Char} (h : d ≤ c) : lesser c d = d := by
  unfold lesser
  split
  · next hle => exact Char.le_antisymm hle h
  · rfl

theorem greater_eq_left {c d : Char} (h : d ≤ c) : greater c d = c := by
  unfold greater
  split
  · next hle => exact Char.le_antisymm h hle
  · rfl

/-- The two ends of an interval. -/
def ends (i : Interval) : Char × Char := (i.lo, i.hi)

theorem map_ends_ofBounds? (lo hi : Char) :
    (ofBounds? lo hi).toList.map ends = if lo ≤ hi then [(lo, hi)] else [] := by
  unfold ofBounds?
  split <;> rfl

theorem map_ends_splitAtSurrogates (i : Interval) : (splitAtSurrogates i).map ends =
    (if i.lo ≤ lesser lastBelowSurrogates i.hi then
      [(i.lo, lesser lastBelowSurrogates i.hi)] else []) ++
    if greater firstAboveSurrogates i.lo ≤ i.hi then
      [(greater firstAboveSurrogates i.lo, i.hi)] else [] := by
  have hprevious : Scalar.previous? firstAboveSurrogates = some lastBelowSurrogates := by
    decide
  have hnext : Scalar.next? lastBelowSurrogates = some firstAboveSurrogates := by decide
  rw [splitAtSurrogates, below?, above?, hprevious, hnext, List.map_append, ← map_ends_ofBounds?,
    ← map_ends_ofBounds?]
  rfl

/-- The ends of the parts of an interval on one side of the surrogates, or on both. -/
theorem splitAtSurrogates_cases (i : Interval) :
    ((i.top < 0xd800 ∨ 0xd800 ≤ i.bottom) ∧ (splitAtSurrogates i).map ends = [ends i]) ∨
    (i.bottom < 0xd800 ∧ 0xd800 ≤ i.top ∧ (splitAtSurrogates i).map ends =
      [(i.lo, lastBelowSurrogates), (firstAboveSurrogates, i.hi)]) := by
  have hle := i.bottom_le_top
  have hlo : ∀ {c : Char}, i.lo ≤ c ↔ i.bottom ≤ c.ordinal.val := Scalar.le_iff
  have hlo' : ∀ {c : Char}, c ≤ i.lo ↔ c.ordinal.val ≤ i.bottom := Scalar.le_iff
  have hhi : ∀ {c : Char}, i.hi ≤ c ↔ i.top ≤ c.ordinal.val := Scalar.le_iff
  have hhi' : ∀ {c : Char}, c ≤ i.hi ↔ c.ordinal.val ≤ i.top := Scalar.le_iff
  have hlast := ordinal_lastBelowSurrogates
  have hfirst := ordinal_firstAboveSurrogates
  rw [map_ends_splitAtSurrogates]
  rcases Nat.lt_or_ge i.top 0xd800 with hbelow | htop
  · refine .inl ⟨.inl hbelow, ?_⟩
    rw [lesser_eq_right (hhi.2 (by omega)), greater_eq_left (hlo.2 (by omega)),
      if_pos i.lo_le_hi, if_neg (mt hhi'.1 (by omega))]
    rfl
  rcases Nat.lt_or_ge i.bottom 0xd800 with hbottom | habove
  · refine .inr ⟨hbottom, htop, ?_⟩
    rw [lesser, if_pos (hhi'.2 (by omega)), greater_eq_left (hlo.2 (by omega)),
      if_pos (hlo.2 (by omega)), if_pos (hhi'.2 (by omega))]
    rfl
  · refine .inl ⟨.inr habove, ?_⟩
    rw [lesser, if_pos (hhi'.2 (by omega)), greater, if_pos (hlo'.2 (by omega)),
      if_neg (mt hlo.1 (by omega)), if_pos i.lo_le_hi]
    rfl

/-- The runs of a set. -/
def bounds (s : IntervalSet) : List (Char × Char) :=
  (s.intervals.flatMap splitAtSurrogates).map ends

theorem bounds_of_intervals {pre : List Interval} (h : s.intervals = pre ++ [i]) :
    bounds s = bounds ⟨pre⟩ ++ (splitAtSurrogates i).map ends := by
  simp [bounds, h]

theorem splitAtSurrogates_singleton (c : Char) :
    (splitAtSurrogates (.singleton c)).map ends = [(c, c)] := by
  rcases splitAtSurrogates_cases (.singleton c) with ⟨-, hends⟩ | ⟨hbottom, htop, -⟩
  · exact hends
  · exact absurd hbottom (Nat.not_lt.2 htop)

/-- No part of an interval ends after it. -/
theorem le_of_mem_splitAtSurrogates {run : Char × Char}
    (h : run ∈ (splitAtSurrogates i).map ends) : run.2.ordinal.val ≤ i.top := by
  obtain ⟨j, hj, rfl⟩ := List.mem_map.1 h
  exact (mem_iff.1 (exists_mem_splitAtSurrogates.1 ⟨j, hj, j.hi_mem⟩)).2

theorem extendRuns_apart {rs : List (Char × Char)}
    (h : ∀ run ∈ rs, run.2.toNat + 1 ≠ c.toNat) :
    extendRuns rs.reverse c = (rs ++ [(c, c)]).reverse := by
  rw [List.reverse_append]
  cases hrs : rs.reverse with
  | nil => rfl
  | cons run rest => exact if_neg (h run (List.mem_reverse.1 (hrs ▸ List.mem_cons_self)))

theorem extendRuns_next {rs : List (Char × Char)} {lo hi : Char}
    (h : hi.toNat + 1 = c.toNat) :
    extendRuns (rs ++ [(lo, hi)]).reverse c = (rs ++ [(lo, c)]).reverse := by
  rw [List.reverse_append, List.reverse_append]
  exact if_pos h

/-- An interval that is made longer by one character is cut where it was, and once more if
the character is the first one above the surrogates. -/
theorem extendRuns_ends {j : Interval} (rs : List (Char × Char))
    (hnext : i.top + 1 = c.ordinal.val) (hlo : j.lo = i.lo) (hhi : j.hi = c) :
    extendRuns (rs ++ (splitAtSurrogates i).map ends).reverse c =
      (rs ++ (splitAtSurrogates j).map ends).reverse := by
  have hbottom : j.bottom = i.bottom := congrArg (·.ordinal.val) hlo
  have htop : j.top = i.top + 1 := (congrArg (·.ordinal.val) hhi).trans hnext.symm
  have hle := i.bottom_le_top
  by_cases hc : c.ordinal.val = 0xd800
  · have hapart : ∀ run : Char × Char, run.2.toNat + 1 ≠ c.toNat := fun run h =>
      (Scalar.toNat_succ_iff.1 h).2 hc
    have hlast : i.hi = lastBelowSurrogates := by
      rw [Scalar.eq_iff, ordinal_lastBelowSurrogates]
      show i.top = 0xd7ff
      omega
    have hfirst : c = firstAboveSurrogates := by
      rw [Scalar.eq_iff, ordinal_firstAboveSurrogates, hc]
    rw [extendRuns_apart fun run _ => hapart run]
    rcases splitAtSurrogates_cases i with ⟨-, hi⟩ | ⟨-, habove, -⟩
    · rcases splitAtSurrogates_cases j with ⟨hside, -⟩ | ⟨-, -, hj⟩
      · omega
      · rw [hi, hj, ends, hlo, hhi, hlast, ← hfirst, List.append_assoc]
        rfl
    · omega
  · have hsucc : i.hi.toNat + 1 = c.toNat := Scalar.toNat_succ_iff.2 ⟨hnext, hc⟩
    rcases splitAtSurrogates_cases i with ⟨hside, hi⟩ | ⟨hbelow, habove, hi⟩
    · rcases splitAtSurrogates_cases j with ⟨-, hj⟩ | ⟨hbelow, habove, -⟩
      · rw [hi, hj, ends, ends, hlo, hhi, extendRuns_next hsucc]
      · omega
    · rcases splitAtSurrogates_cases j with ⟨hside, -⟩ | ⟨-, -, hj⟩
      · omega
      · rw [hi, hj, hlo, hhi, List.append_cons, extendRuns_next hsucc, List.append_assoc]
        rfl

/-- Adding a character above a set to its runs comes to inserting it. -/
theorem extendRuns_bounds (h : s.Canonical) (hlt : ∀ d ∈ s, d < c) :
    extendRuns (bounds s).reverse c = (bounds (s.insert (.singleton c))).reverse := by
  rcases IntervalSet.insert_above h hlt with ⟨hclear, hins⟩ | ⟨pre, i, j, hs, hi, hlo, hhi, hins⟩
  · have hapart : ∀ run ∈ bounds s, run.2.toNat + 1 ≠ c.toNat := by
      intro run hrun hnext
      obtain ⟨k, hk, rfl⟩ := List.mem_map.1 hrun
      obtain ⟨i, hi, hk⟩ := List.mem_flatMap.1 hk
      have hle := le_of_mem_splitAtSurrogates (List.mem_map_of_mem hk)
      have hlt := hclear i hi
      have hsucc := (Scalar.toNat_succ_iff.1 hnext).1
      omega
    rw [bounds_of_intervals hins, splitAtSurrogates_singleton, extendRuns_apart hapart]
  · rw [bounds_of_intervals hs, bounds_of_intervals hins]
    exact extendRuns_ends _ hi hlo hhi

/-- The runs of ascending characters are those of their set. -/
theorem runs_eq {cs : List Char} (h : cs.Pairwise (· < ·)) :
    runs cs = bounds (IntervalSet.ofChars cs) := by
  suffices hrev : cs.foldl extendRuns [] = (bounds (IntervalSet.ofChars cs)).reverse by
    rw [runs, hrev, List.reverse_reverse]
  induction cs using List.reverseRecOn with
  | nil => rfl
  | append_singleton cs c ih =>
    obtain ⟨hcs, -, hlast⟩ := List.pairwise_append.1 h
    have hlt : ∀ d ∈ IntervalSet.ofChars cs, d < c := fun d hd =>
      hlast d (IntervalSet.mem_ofChars.1 hd) c List.mem_cons_self
    have hins : IntervalSet.ofChars (cs ++ [c]) =
        (IntervalSet.ofChars cs).insert (.singleton c) := by
      rw [IntervalSet.ofChars, List.map_append, IntervalSet.ofIntervals, List.foldl_append]
      rfl
    rw [List.foldl_append, ih hcs, hins]
    exact extendRuns_bounds (IntervalSet.canonical_ofIntervals _) hlt

/-- Sorting and dropping repetitions keeps the characters, in strictly ascending order. -/
theorem sorted_spec (cs : List Char) :
    (sorted cs).Pairwise (· < ·) ∧ ∀ c, c ∈ sorted cs ↔ c ∈ cs := by
  let le (c d : Char) : Bool := decide (c ≤ d)
  have htrans : ∀ a b c, le a b = true → le b c = true → le a c = true := fun a b c hab hbc =>
    decide_eq_true (Char.le_trans (of_decide_eq_true hab) (of_decide_eq_true hbc))
  have htotal : ∀ a b, (le a b || le b a) = true := fun a b => by
    simpa [le] using Char.le_total a b
  have hle : (cs.mergeSort le).Pairwise (· ≤ ·) :=
    (List.pairwise_mergeSort htrans htotal cs).imp of_decide_eq_true
  have hdedup : sorted cs = (cs.mergeSort le).dedup := hle.destutter_eq_dedup
  rw [hdedup]
  refine ⟨?_, fun c => by rw [List.mem_dedup, List.mem_mergeSort]⟩
  have hsorted := hle.sublist (List.dedup_sublist _)
  exact (hsorted.and (List.nodup_dedup _)).imp fun ⟨hle, hne⟩ =>
    Char.not_le.1 fun hge => hne (Char.le_antisymm hle hge)

/-- The class by runs is the class by sets. -/
@[simp] theorem ofCharsByRuns_eq (cs : List Char) : ofCharsByRuns cs = ofChars cs := by
  obtain ⟨hpairwise, hmem⟩ := sorted_spec cs
  have hset : IntervalSet.ofChars (sorted cs) = IntervalSet.ofChars cs :=
    IntervalSet.ofChars_congr hmem
  rw [ofCharsByRuns, runs_eq hpairwise, hset, bounds, List.map_map]
  rfl

/-! ## Two lists of the same characters -/

section SameCharacters

variable {a b : Alphabet} {alphabet alphabet' : Option Alphabet} {x y : List Char}

theorem domain_of_same (h : ∀ c, c ∈ a.chars ↔ c ∈ b.chars) : domain (some a) = domain (some b) :=
  IntervalSet.ofChars_congr h

theorem mem_filter_of_same (h : ∀ c, c ∈ a.chars ↔ c ∈ b.chars) (test : Char → Bool) (c : Char) :
    c ∈ a.filter test ↔ c ∈ b.filter test := by
  rw [Alphabet.filter, Alphabet.filter, List.mem_filter, List.mem_filter, h c]

theorem blanks_of_same (h : ∀ c, c ∈ a.chars ↔ c ∈ b.chars) : blanks (some a) = blanks (some b) :=
  IntervalSet.ofChars_congr (mem_filter_of_same h _)

theorem anyCharDfa_of_same (h : ∀ c, c ∈ a.chars ↔ c ∈ b.chars) :
    anyCharDfa (some a) = anyCharDfa (some b) :=
  congrArg Dfa.ofSet (IntervalSet.ofChars_congr h)

theorem ofChars_filter_of_same (h : ∀ c, c ∈ a.chars ↔ c ∈ b.chars) (test : Char → Bool) :
    ofChars (a.filter test) = ofChars (b.filter test) :=
  congrArg ofSet (IntervalSet.ofChars_congr (mem_filter_of_same h test))

/-- Compiling asks the alphabet for the automaton of `.` only. -/
theorem compilePiece_of_anyCharDfa (h : anyCharDfa alphabet = anyCharDfa alphabet')
    (env : Environment) (p : Pattern) :
    p.compilePiece alphabet env = p.compilePiece alphabet' env := by
  induction p with
  | union a b iha ihb | concat a b iha ihb | inter a b iha ihb =>
      rw [compilePiece, compilePiece, iha, ihb]
  | optional a ih | star a ih | atLeast _ a ih | between _ _ a ih | complement a ih =>
      rw [compilePiece, compilePiece, ih]
  | anyChar => rw [compilePiece, compilePiece, h]
  | _ => rfl

theorem congruent_eq : Congruent (· = ·) where
  refl _ := rfl
  union := fun ha hb => by rw [ha, hb]
  inter := fun ha hb => by rw [ha, hb]
  join := fun ha hb => by rw [ha, hb]
  optional := fun ha => by rw [ha]
  star := fun ha => by rw [ha]
  atLeast := fun _ ha => by rw [ha]
  between := fun _ _ ha => by rw [ha]
  complement := fun ha => by rw [ha]

/-- Reading asks the alphabet for the trees of class escapes only. -/
theorem parse_of_classEscape (e : Extensions) (s : List Char)
    (h : ∀ letter, Parser.classEscape alphabet letter = Parser.classEscape alphabet' letter) :
    parse ⟨e, alphabet⟩ s = parse ⟨e, alphabet'⟩ s := by
  rcases parse_agree congruent_eq e (s := s) fun letter _ _ _ => h letter with
    ⟨fault, hx, hy⟩ | ⟨p, q, hx, hy, rfl⟩
  · rw [hx, hy]
  · rw [hx, hy]

/-- Two lists of the same characters are one alphabet, in whatever order and however often
they name them: a text is read as the same tree or has the same fault, and a tree mentions
the same characters and is compiled to the same automaton in every environment. A class by
runs from one of the lists is the class by sets from the other. -/
theorem alphabet_as_set (h : ∀ c, c ∈ x ↔ c ∈ y) :
    (∀ e s, parse ⟨e, some (.ofList x)⟩ s = parse ⟨e, some (.ofList y)⟩ s) ∧
    (∀ p, usedChars (some (.ofList x)) p = usedChars (some (.ofList y)) p) ∧
    (∀ p env, compile (some (.ofList x)) env p = compile (some (.ofList y)) env p) ∧
    ∀ test, ofCharsByRuns ((Alphabet.ofList x).filter test) =
      ofChars ((Alphabet.ofList y).filter test) := by
  have hsame : ∀ c, c ∈ (Alphabet.ofList x).chars ↔ c ∈ (Alphabet.ofList y).chars := fun c => by
    rw [Alphabet.ofList, Alphabet.ofList, Exploration.mem_distinct, Exploration.mem_distinct, h c]
  refine ⟨fun e s => ?_, fun p => ?_, fun p env => ?_, fun test => ?_⟩
  · exact parse_of_classEscape e s fun letter => ofChars_filter_of_same hsame _
  · exact usedChars_congr (domain_of_same hsame) (blanks_of_same hsame) p
  · rw [compile, compile, compilePiece_of_anyCharDfa (anyCharDfa_of_same hsame)]
  · rw [ofCharsByRuns_eq, ofChars_filter_of_same hsame]

/-- A letter that is given twice, and the blank last or in the middle. -/
theorem alphabet_as_set_reordered :
    (∀ c, c ∈ ['b', ' ', 'a', 'b'] ↔ c ∈ ['a', 'b', ' ']) ∧
    Alphabet.ofList ['b', ' ', 'a', 'b'] ≠ Alphabet.ofList ['a', 'b', ' '] ∧
    parse ⟨.all, some (.ofList ['b', ' ', 'a', 'b'])⟩ "\\w~(\\d)".toList =
      .ok (concat (range 'a' 'b') (complement empty)) ∧
    (∀ env, compile (some (.ofList ['b', ' ', 'a', 'b'])) env anyChar =
      compile (some (.ofList ['a', 'b', ' '])) env anyChar) ∧
    usedChars (some (.ofList ['b', ' ', 'a', 'b'])) (complement empty) =
      ⟨[⟨'a', 'b', by decide⟩]⟩ ∧
    ofCharsByRuns (Alphabet.ofList ['b', ' ', 'a', 'b']).chars =
      union (char ' ') (range 'a' 'b') := by
  have hsame : ∀ c, c ∈ ['b', ' ', 'a', 'b'] ↔ c ∈ ['a', 'b', ' '] := fun c => by
    simp only [List.mem_cons, List.not_mem_nil]
    grind
  obtain ⟨hparse, hused, hcompile, -⟩ := alphabet_as_set hsame
  refine ⟨hsame, by decide, ?_, fun env => hcompile anyChar env, ?_, ?_⟩
  · rw [hparse]
    decide +kernel
  · rw [hused]
    decide +kernel
  · rw [ofCharsByRuns_eq]
    decide +kernel

end SameCharacters

end Pattern

end PatternAutomata
