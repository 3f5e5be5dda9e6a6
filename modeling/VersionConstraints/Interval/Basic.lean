import VersionConstraints.Comparator.Basic
import VersionConstraints.Interval.Bound

/-!
# Intervals

An interval lies between two optional bounds. A release is in it when it lies between them. For a
prerelease one of the bounds must, besides, be a prerelease of the same release; so the bounds alone
tell which prereleases are let in.
-/

namespace VersionConstraints

/-- The versions between two bounds. -/
structure Interval where
  lower : Option Bound
  upper : Option Bound
deriving DecidableEq

namespace Interval

def exact (v : Semver) : Interval :=
  ⟨some ⟨v, true⟩, some ⟨v, true⟩⟩

/-- The releases whose prereleases an interval may let in, the lower bound's first. -/
def prereleasesOf (i : Interval) : List Release :=
  ((i.lower.bind Bound.prereleaseOf?).toList ++ (i.upper.bind Bound.prereleaseOf?).toList).eraseDups

/-- Whether a version is above the lower bound, if there is one. -/
def isAboveLower (lower : Option Bound) (v : Semver) : Except Fault Bool :=
  match lower with
  | none   => .ok true
  | some b => b.isBelow v

/-- Whether a version is below the upper bound, if there is one. -/
def isBelowUpper (upper : Option Bound) (v : Semver) : Except Fault Bool :=
  match upper with
  | none   => .ok true
  | some b => b.isAbove v

def contains (i : Interval) (v : Semver) : Except Fault Bool := do
  if !(← isAboveLower i.lower v) then return false
  if !(← isBelowUpper i.upper v) then return false
  return !v.isPrerelease || v.release ∈ i.prereleasesOf

/-- How two intervals compare: by the lower bound, then by the upper one. -/
def compare (i j : Interval) : Except Fault Ordering := do
  match ← Bound.compareLower i.lower j.lower with
  | .eq => Bound.compareUpper i.upper j.upper
  | o   => return o

def isBefore (i j : Interval) : Except Fault Bool :=
  return (← i.compare j) == .lt

/-! ### Text -/

def lowerText (b : Bound) : Text :=
  (if b.inclusive then Operator.text .atLeast else Operator.text .above) ++ b.version.text

def upperText (b : Bound) : Text :=
  (if b.inclusive then Operator.text .atMost else Operator.text .below) ++ b.version.text

def isExact (lower upper : Bound) : Except Fault Bool := do
  if lower.inclusive && upper.inclusive then
    return (← lower.version.compare upper.version) == .eq
  else
    return false

/-- The canonical text of an interval. -/
def text (i : Interval) : Except Fault Text :=
  match i.lower, i.upper with
  | none, none             => .ok ['*']
  | some lower, none       => .ok (lowerText lower)
  | none, some upper       => .ok (upperText upper)
  | some lower, some upper => do
    if ← isExact lower upper then return lower.version.text
    else return lowerText lower ++ ' ' :: upperText upper

end Interval

end VersionConstraints
