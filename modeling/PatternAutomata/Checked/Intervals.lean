import PatternAutomata.Checked.Basic

/-!
# Sets and maps of characters by single calls

A search in a sorted list does not pass the entries one by one. It looks at the entry in
the middle of the stretch that is left, and goes on in one half of it. Each entry is looked
up by its index, and the second of two searches works on what the first one leaves of the
list, which has to be a part of it. The entries may be more than intervals: what a search
compares is their key.

An insertion into a set takes the ends of the entries that the search finds, and forms an
interval from them. An insertion into a map replaces a range of entries.

## Main definitions

* `Checked.bisect`: how many entries at the beginning of a list pass a test.
* `Checked.searchIntersecting`, `Checked.searchTouching`: the ranges of the entries whose
  keys meet an interval, or meet or touch it.
* `Checked.insertSet`, `Checked.insertMap`: insertions into what the searches find.
-/

namespace PatternAutomata.Checked

open PatternAutomata.Interval

/-! ## Searching by halving -/

section Search

variable {α : Type}

/-- The first index from `lo` on whose entry fails the test, if all entries before `lo`
pass it and all from `hi` on fail it. -/
def bisectFrom (test : α → Bool) (xs : List α) (lo hi : Nat) : Checked Nat :=
  if lo < hi then do
    let mid := lo + (hi - lo) / 2
    let x ← entry xs mid
    if test x then bisectFrom test xs (mid + 1) hi else bisectFrom test xs lo mid
  else pure lo
termination_by hi - lo

/-- The first index whose entry fails the test, if all entries after it fail it, too. -/
def bisect (test : α → Bool) (xs : List α) : Checked Nat := bisectFrom test xs 0 xs.length

/-- The indices of the entries whose keys share a character with `q`. -/
def searchIntersecting (key : α → Interval) (xs : List α) (q : Interval) :
    Checked IndexRange := do
  let start ← bisect (fun x => decide ((key x).hi < q.lo)) xs
  within ⟨start, xs.length⟩ xs
  let width ← bisect (fun x => decide ((key x).lo ≤ q.hi)) (xs.drop start)
  return ⟨start, start + width⟩

/-- The start of a range, moved down if the key of the entry before it touches `q`. -/
def reachDown (key : α → Interval) (xs : List α) (q : Interval) (start : Nat) : Checked Nat :=
  if start = 0 then pure start
  else do
    let x ← entry xs (start - 1)
    return if (key x).Touches q then start - 1 else start

/-- The end of a range, moved up if the key of the entry there touches `q`. -/
def reachUp (key : α → Interval) (xs : List α) (q : Interval) (stop : Nat) : Checked Nat :=
  if stop = xs.length then pure stop
  else do
    let x ← entry xs stop
    return if (key x).Touches q then stop + 1 else stop

/-- The indices of the entries whose keys share a character with `q` or touch it. -/
def searchTouching (key : α → Interval) (xs : List α) (q : Interval) :
    Checked IndexRange := do
  let r ← searchIntersecting key xs q
  return ⟨← reachDown key xs q r.start, ← reachUp key xs q r.stop⟩

end Search

/-! ## Sets -/

/-- Adds the characters of an interval to a set. -/
def insertSet (s : IntervalSet) (i : Interval) : Checked IntervalSet := do
  let r ← searchTouching id s.intervals i
  if r.stop ≤ r.start then
    within ⟨r.start, r.start⟩ s.intervals
    return ⟨IndexRange.splice ⟨r.start, r.start⟩ [i] s.intervals⟩
  else
    let first ← entry s.intervals r.start
    let last ← entry s.intervals (r.stop - 1)
    let joined ← ofBounds (lesser first.lo i.lo) (greater last.hi i.hi)
    within r s.intervals
    return ⟨r.splice [joined] s.intervals⟩

/-- The union of some intervals. -/
def ofIntervals (is : List Interval) : Checked IntervalSet := is.foldlM insertSet ∅

/-- The interval of one character. -/
def singleton (c : Char) : Checked Interval := ofBounds c c

/-- The gaps between ascending intervals, from the given character on. -/
def gaps : Option Char → List Interval → Checked (List Interval)
  | next, [] => next.toList.mapM fun c => ofBounds c Scalar.greatest
  | next, i :: is => do
    let rest := next.bind fun c => ofBounds? c Scalar.greatest
    return (rest.bind (·.below? i.lo)).toList ++ (← gaps (Scalar.next? i.hi) is)

/-- The characters that are not in a set. -/
def invert (s : IntervalSet) : Checked IntervalSet :=
  return ⟨← gaps (some Scalar.least) s.intervals⟩

/-! ## Maps -/

/-- Assigns a value to the characters of an interval, united with the values there. -/
def insertMap {α : Type} (unify : α → α → α) (map : IntervalMap α) (key : Interval)
    (value : α) : Checked (IntervalMap α) := do
  let r ← searchIntersecting (·.1) map.entries key
  within r map.entries
  let woven := Id.run (IntervalMap.weave (fun old new => pure (unify old new)) value (some key)
    (r.slice map.entries))
  return ⟨r.splice woven map.entries⟩

end PatternAutomata.Checked
