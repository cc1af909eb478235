import PatternAutomata.Interval.Basic

/-!
# Lists of intervals

Sets of characters and maps from characters to values are kept as sorted lists of
intervals. What an insertion has to change is a contiguous stretch of such a list.

## Main definitions

* `Interval.intersecting`, `Interval.touching`: the stretches that insertions change.
* `Interval.Ascending`, `Interval.Apart`: the order that the lists are in.
* `IntervalSet`, `IntervalMap`: sets, and maps that are constant on intervals.
-/

/-! ## Searching sorted lists of intervals

The intervals of a set or of the keys of a map are kept in a list that is sorted
and disjoint. What an insertion of `q` has to change is a contiguous stretch of
such a list, given as an `IndexRange`: the entries that share a character with
`q` (`intersecting`), or these together with the neighbours that touch `q`
(`touching`).

Both searches split the list at the first entry that fails a test which holds of
a beginning of the list only. -/

namespace PatternAutomata.Interval

/-- The length of the longest beginning of `xs` whose members all pass `test`. -/
def partitionPoint {α : Type u} (test : α → Bool) (xs : List α) : Nat :=
  (xs.takeWhile test).length

/-- The indices `start, …, stop - 1`. -/
structure IndexRange where
  start : Nat
  stop : Nat
deriving DecidableEq, Repr

instance : Membership Nat IndexRange where
  mem r k := r.start ≤ k ∧ k < r.stop

namespace IndexRange

/-- The members of a list with an index in the range. -/
def slice {α : Type u} (r : IndexRange) (xs : List α) : List α :=
  (xs.drop r.start).take (r.stop - r.start)

/-- The list with the members that have an index in the range replaced by `ys`. -/
def splice {α : Type u} (r : IndexRange) (ys xs : List α) : List α :=
  xs.take r.start ++ ys ++ xs.drop r.stop

end IndexRange

/-- The indices of the intervals that share a character with `q`. They start
after the intervals that end below `q`, and go on as long as an interval does not
begin above it. -/
def intersecting (xs : List Interval) (q : Interval) : IndexRange :=
  let start := partitionPoint (fun x => decide (x.hi < q.lo)) xs
  ⟨start, start + partitionPoint (fun x => decide (x.lo ≤ q.hi)) (xs.drop start)⟩

/-- Whether the list has an interval with index `k` and it touches `q`. -/
def touchesAt (xs : List Interval) (q : Interval) (k : Nat) : Bool :=
  xs[k]?.any fun x => decide (x.Touches q)

/-- The indices of the intervals that share a character with `q` or touch it: the
intersecting ones, and on either side the neighbour if it touches. -/
def touching (xs : List Interval) (q : Interval) : IndexRange :=
  let r := intersecting xs q
  ⟨if r.start ≠ 0 ∧ touchesAt xs q (r.start - 1) then r.start - 1 else r.start,
   if touchesAt xs q r.stop then r.stop + 1 else r.stop⟩

end PatternAutomata.Interval

/-! ## Order in lists of intervals

What the searches and insertions expect of the lists that they work on, and keep:
intervals ascend without meeting (`Ascending`), and those of a set do not even touch
(`Apart`). -/

namespace PatternAutomata

namespace Interval

/-- Every interval of a list comes before those after it. -/
def Ascending (is : List Interval) : Prop := is.Pairwise Before

/-- The intervals of a list ascend and leave gaps between them. -/
def Apart (is : List Interval) : Prop := is.Pairwise fun i j => i.Before j ∧ ¬ i.Touches j

instance (is : List Interval) : Decidable (Ascending is) :=
  inferInstanceAs (Decidable (is.Pairwise Before))

instance (is : List Interval) : Decidable (Apart is) :=
  inferInstanceAs (Decidable (is.Pairwise fun i j => i.Before j ∧ ¬ i.Touches j))

/-- The range is that of the intervals of a list with some property, no other interval has
the property, and if there is none, `q` can be put into the list at the start of the range
and nowhere else. -/
structure IndexRange.Exact (r : IndexRange) (is : List Interval) (q : Interval)
    (property : Interval → Prop) : Prop where
  start_le : r.start ≤ r.stop
  stop_le : r.stop ≤ is.length
  mem_iff : ∀ k, k ∈ r ↔ ∃ i, is[k]? = some i ∧ property i
  place : r.start = r.stop →
    ∀ k ≤ is.length, Ascending (is.insertIdx k q) ↔ k = r.start

end Interval

/-! ## Sets of characters as lists of intervals

An `IntervalSet` stores a set of characters as intervals in ascending order. An
insertion joins the new interval with every stored one that it meets or touches,
so stored intervals stay apart and a set has one representation only.

`invert` walks along the stored intervals and collects the gaps between them; it
needs no insertion. -/

/-- A set of characters, as ascending intervals that neither meet nor touch. -/
structure IntervalSet where
  intervals : List Interval
deriving DecidableEq

namespace IntervalSet

/-- The set without members. -/
def empty : IntervalSet := ⟨[]⟩

instance : EmptyCollection IntervalSet := ⟨empty⟩

instance : Inhabited IntervalSet := ⟨empty⟩

instance : Membership Char IntervalSet where
  mem s c := ∃ i ∈ s.intervals, c ∈ i

theorem mem_def {c : Char} {s : IntervalSet} : c ∈ s ↔ ∃ i ∈ s.intervals, c ∈ i := Iff.rfl

instance (c : Char) (s : IntervalSet) : Decidable (c ∈ s) :=
  inferInstanceAs (Decidable (∃ i ∈ s.intervals, c ∈ i))

/-- Whether the set has no members. -/
def isEmpty (s : IntervalSet) : Bool := s.intervals.isEmpty

/-- Adds the characters of an interval. -/
def insert (s : IntervalSet) (i : Interval) : IntervalSet :=
  let r := Interval.touching s.intervals i
  ⟨r.splice [(r.slice s.intervals).foldl Interval.hull i] s.intervals⟩

/-- The union of some intervals. -/
def ofIntervals (is : List Interval) : IntervalSet := is.foldl insert empty

/-- The set of some characters. -/
def ofChars (cs : List Char) : IntervalSet := ofIntervals (cs.map Interval.singleton)

/-- The set of the characters `lo, …, hi`, empty if the bounds are reversed. -/
def ofBounds (lo hi : Char) : IntervalSet := ofIntervals (Interval.ofBounds? lo hi).toList

/-- The characters from `c` on. -/
def upFrom (c : Char) : Interval := ⟨c, Scalar.greatest, Scalar.le_greatest c⟩

/-- The gaps between ascending intervals, from the given character on. After an interval
it goes on with the next character, if there is one. -/
def gaps : Option Char → List Interval → List Interval
  | next, [] => next.toList.map upFrom
  | next, i :: is =>
    (next.bind fun c => (upFrom c).below? i.lo).toList ++ gaps (Scalar.next? i.hi) is

/-- The characters that are not in the set. -/
def invert (s : IntervalSet) : IntervalSet := ⟨gaps (some Scalar.least) s.intervals⟩

/-- The characters in either set. -/
def union (s t : IntervalSet) : IntervalSet := t.intervals.foldl insert s

/-- The characters in both sets. -/
def inter (s t : IntervalSet) : IntervalSet := (s.invert.union t.invert).invert

/-- The characters of the first set that are not in the second. -/
def diff (s t : IntervalSet) : IntervalSet := s.inter t.invert

/-- The set is in the one form that its members have. -/
def Canonical (s : IntervalSet) : Prop := Interval.Apart s.intervals

/-- The members in ascending order. -/
def toList (s : IntervalSet) : List Char := s.intervals.flatMap Interval.toList

end IntervalSet

/-! ## Maps from characters to values, constant on intervals

An `IntervalMap` assigns values to characters and stores them per interval, in
ascending order. Intervals are disjoint; two that touch stay apart even if their
values agree.

Inserting a value on a key that is partly taken splits the taken intervals at the
ends of the key. Where the key meets an entry, the value is what `unify` makes of
the old and the inserted value. The function may have an effect, so it can be
seen on which pairs it is called, and in which order. -/

/-- A map from characters to values, as ascending disjoint intervals. -/
structure IntervalMap (α : Type u) where
  entries : List (Interval × α)
deriving DecidableEq

namespace IntervalMap

variable {α : Type u}

/-- The map without entries. -/
def empty : IntervalMap α := ⟨[]⟩

instance : EmptyCollection (IntervalMap α) := ⟨empty⟩

instance : Inhabited (IntervalMap α) := ⟨empty⟩

/-- The value at a character. -/
def find? (m : IntervalMap α) (c : Char) : Option α :=
  (m.entries.find? fun e => decide (c ∈ e.1)).map (·.2)

/-- The entry for a part of an interval, if that part is there. -/
def piece (part : Option Interval) (value : α) : List (Interval × α) :=
  part.toList.map fun i => (i, value)

/-- Lays `value` over the entries that the key meets. The first argument is the
part of the key that lies above the entries passed so far. -/
def weave [Monad m] (unify : α → α → m α) (value : α) :
    Option Interval → List (Interval × α) → m (List (Interval × α))
  | none, entries => pure entries
  | some rest, [] => pure [(rest, value)]
  | some rest, (i, old) :: entries =>
    let before := piece (i.below? rest.lo) old ++ piece (rest.below? i.lo) value
    match i.inter? rest with
    | none => do
      let later ← weave unify value (some rest) entries
      return before ++ (i, old) :: later
    | some common => do
      let new ← unify old value
      let later ← weave unify value (rest.above? common.hi) entries
      return before ++ (common, new) :: (piece (i.above? common.hi) old ++ later)

/-- Assigns `value` to the characters of `key`; where there is a value already,
`unify` decides, given the old and the inserted value. -/
def insertM [Monad m] (unify : α → α → m α) (map : IntervalMap α) (key : Interval)
    (value : α) : m (IntervalMap α) := do
  let r := Interval.intersecting (map.entries.map (·.1)) key
  let woven ← weave unify value (some key) (r.slice map.entries)
  return ⟨r.splice woven map.entries⟩

/-- `insertM` with a function that has no effect. -/
def insert (unify : α → α → α) (map : IntervalMap α) (key : Interval) (value : α) :
    IntervalMap α :=
  Id.run (insertM (fun old new => pure (unify old new)) map key value)

/-- The entries of the map ascend. -/
def Ordered (m : IntervalMap α) : Prop := Interval.Ascending (m.entries.map (·.1))

instance (m : IntervalMap α) : Decidable m.Ordered :=
  inferInstanceAs (Decidable (Interval.Ascending _))

end IntervalMap

end PatternAutomata
