import VersionConstraints.Order.Merge

/-!
# Sorting

A list is sorted by a test, which may fail, of whether one element comes before another. The list is
cut into runs from the front, and neighbouring runs are merged as soon as the later ones are not
much shorter than the earlier ones. Elements of which neither comes before the other keep their
order.

The tests that are made are fixed, and so is the answer for a test that is not transitive.
-/

namespace VersionConstraints

namespace Sorting

/-! ### The least run -/

/-- The lists that are short enough for a single run are those below this length. -/
def singleRunLimit : Nat := 64

/-- Halve a length until it is below the limit, and add one if a half was ever rounded down. -/
def leastRunFrom (n roundedDown : Nat) : Nat :=
  if n < singleRunLimit then n + roundedDown
  else leastRunFrom (n / 2) (max roundedDown (n % 2))
termination_by n
decreasing_by
  simp only [singleRunLimit] at *
  omega

/-- The least length of a run in a list of a given length. -/
def leastRun (n : Nat) : Nat :=
  leastRunFrom n 0

/-! ### Pending runs -/

variable {ε α : Type} (before : α → α → Except ε Bool)

/-- Whether one of the latest runs, the last one first, is no longer than the next two together. -/
def isCrowded : List (List α) → Bool
  | z :: y :: x :: w :: _ =>
    x.length ≤ y.length + z.length || w.length ≤ x.length + y.length
  | [z, y, x]             => x.length ≤ y.length + z.length
  | _                     => false

/-- Merge the latest runs, the last one first, while they are crowded or the last one is as long as
the one before it. Of three runs the middle one is merged with the shorter of the others. -/
def mergeCrowded (threshold : Nat) (runs : List (List α)) : Except ε (List (List α) × Nat) :=
  match runs with
  | z :: y :: x :: rest => do
    if isCrowded (z :: y :: x :: rest) && x.length < z.length then
      let (xy, threshold) ← Run.merge before threshold x y
      mergeCrowded threshold (z :: xy :: rest)
    else if isCrowded (z :: y :: x :: rest) || y.length ≤ z.length then
      let (yz, threshold) ← Run.merge before threshold y z
      mergeCrowded threshold (yz :: x :: rest)
    else return (z :: y :: x :: rest, threshold)
  | [z, y]              => do
    if y.length ≤ z.length then
      let (yz, threshold) ← Run.merge before threshold y z
      return ([yz], threshold)
    else return ([z, y], threshold)
  | runs                => .ok (runs, threshold)
termination_by runs.length

def mergeAll (threshold : Nat) (runs : List (List α)) : Except ε (List α) :=
  match runs with
  | z :: y :: x :: rest => do
    if x.length < z.length then
      let (xy, threshold) ← Run.merge before threshold x y
      mergeAll threshold (z :: xy :: rest)
    else
      let (yz, threshold) ← Run.merge before threshold y z
      mergeAll threshold (yz :: x :: rest)
  | [z, y]              => do
    let (yz, _) ← Run.merge before threshold y z
    return yz
  | [z]                 => .ok z
  | []                  => .ok []
termination_by runs.length

/-! ### Sorting -/

/-- Sort a list behind runs that are pending, the last one first. -/
def sortFrom (least threshold : Nat) (runs : List (List α)) (xs : List α) : Except ε (List α) :=
  match xs with
  | []      => mergeAll before threshold runs
  | x :: xs =>
    match _h : Run.next before least (x :: xs) with
    | .error e         => .error e
    | .ok (run, rest)  => do
      let (runs, threshold) ← mergeCrowded before threshold (run :: runs)
      sortFrom least threshold runs rest
termination_by xs.length
decreasing_by exact Run.length_next _h

def sort (xs : List α) : Except ε (List α) :=
  sortFrom before (leastRun xs.length) longStretch [] xs

end Sorting

end VersionConstraints
