import VersionConstraints.Semver.Order

/-!
# Bounds

A bound is a version that is included or not. An absent bound excludes nothing. The lower bounds and
the upper bounds have an order each: an absent lower bound comes first and an absent upper bound
last, and at one version the bound that lets more versions in comes first among the lower and last
among the upper ones.
-/

namespace VersionConstraints

/-- One end of an interval. -/
structure Bound where
  version : Semver
  inclusive : Bool
deriving DecidableEq

namespace Bound

/-! ### Versions beyond a bound -/

/-- Whether a version is above a lower bound. -/
def isBelow (lower : Bound) (v : Semver) : Except Fault Bool := do
  match ← v.compare lower.version with
  | .gt => return true
  | .eq => return lower.inclusive
  | .lt => return false

/-- Whether a version is below an upper bound. -/
def isAbove (upper : Bound) (v : Semver) : Except Fault Bool := do
  match ← v.compare upper.version with
  | .lt => return true
  | .eq => return upper.inclusive
  | .gt => return false

/-- The release of a bound whose version is a prerelease. -/
def prereleaseOf? (b : Bound) : Option Release :=
  if b.version.isPrerelease then some b.version.release else none

/-! ### The tighter of two bounds -/

/-- The lower bound that excludes more. -/
def tighterLower : Option Bound → Option Bound → Except Fault (Option Bound)
  | none, b        => .ok b
  | some a, none   => .ok (some a)
  | some a, some b => do
    match ← a.version.compare b.version with
    | .gt => return some a
    | .lt => return some b
    | .eq => return some (if a.inclusive then b else a)

/-- The upper bound that excludes more. -/
def tighterUpper : Option Bound → Option Bound → Except Fault (Option Bound)
  | none, b        => .ok b
  | some a, none   => .ok (some a)
  | some a, some b => do
    match ← a.version.compare b.version with
    | .lt => return some a
    | .gt => return some b
    | .eq => return some (if a.inclusive then b else a)

/-! ### The orders -/

def compareLower : Option Bound → Option Bound → Except Fault Ordering
  | none, none     => .ok .eq
  | none, some _   => .ok .lt
  | some _, none   => .ok .gt
  | some a, some b => return (← a.version.compare b.version).then (compare b.inclusive a.inclusive)

def compareUpper : Option Bound → Option Bound → Except Fault Ordering
  | none, none     => .ok .eq
  | none, some _   => .ok .gt
  | some _, none   => .ok .lt
  | some a, some b => return (← a.version.compare b.version).then (compare a.inclusive b.inclusive)

end Bound

end VersionConstraints
