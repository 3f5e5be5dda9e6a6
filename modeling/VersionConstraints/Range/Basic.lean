import VersionConstraints.Interval.Normalize
import VersionConstraints.Order.Sort

/-!
# Ranges

A range is a list of intervals and holds the versions of all of them. It is canonical when it is
sorted and holds no interval twice; overlapping intervals are not merged.
-/

namespace VersionConstraints

/-- A union of intervals. -/
abbrev Range := List Interval

namespace Range

/-! ### Membership -/

def contains (v : Semver) : Range → Except Fault Bool
  | []      => .ok false
  | i :: is => do
    if ← i.contains v then return true
    else contains v is

/-! ### Canonical ranges -/

/-- Drop each interval that compares as equal to the one kept before it. -/
def dropRepeated (last : Interval) : List Interval → Except Fault (List Interval)
  | []      => .ok []
  | i :: is => do
    match ← last.compare i with
    | .eq => dropRepeated last is
    | _   => return i :: (← dropRepeated i is)

/-- The range of some intervals, sorted and without repetitions. -/
def canonical (is : List Interval) : Except Fault Range := do
  match ← Sorting.sort Interval.isBefore is with
  | []      => return []
  | i :: is => return i :: (← dropRepeated i is)

/-- Whether two ranges hold the same intervals in the same order. -/
def equal : Range → Range → Except Fault Bool
  | is, js => if is.length = js.length then pairwise is js else .ok false
where
  /-- Compare intervals in pairs, up to the first pair that differs. -/
  pairwise : List Interval → List Interval → Except Fault Bool
    | i :: is, j :: js => do
      if (← i.compare j) = .eq then pairwise is js else return false
    | _, _             => .ok true

/-! ### Intersection -/

/-- The intersections of an interval with those of a list, as far as there are any. -/
def intersectWith (i : Interval) : List Interval → Except Fault (List Interval)
  | []      => .ok []
  | j :: js => do
    let k ← i.intersect j
    let ks ← intersectWith i js
    return k.toList ++ ks

/-- The intersections of the intervals of two lists, as far as there are any. -/
def intersectAll : List Interval → List Interval → Except Fault (List Interval)
  | [], _       => .ok []
  | i :: is, js => do
    let first ← intersectWith i js
    let rest ← intersectAll is js
    return first ++ rest

def intersect (is js : Range) : Except Fault Range := do
  canonical (← intersectAll is js)

/-! ### Text -/

def text (is : Range) : Except Fault Text := do
  return [' ', '|', '|', ' '].intercalate (← is.mapM Interval.text)

end Range

end VersionConstraints
