import VersionConstraints.Interval.Basic

/-!
# Normal intervals

Bounds and a list of releases give an interval that lets in prereleases of those releases only. A
release of the list is admitted when one of its prereleases lies between the bounds. A prerelease
bound whose release is not admitted is replaced by that release, and when neither a prerelease nor a
release lies between the bounds there is no interval.

Both a fold of comparators and an intersection end with this step.
-/

namespace VersionConstraints

namespace Interval

/-! ### Lowest candidates -/

/-- The lowest prerelease of a release above a lower bound; none when the bound is above all. -/
def lowestPrerelease? (r : Release) (lower : Option Bound) : Except Fault (Option Semver) :=
  match lower with
  | none   => .ok (some (Semver.lowestPrerelease r))
  | some b => do
    if b.prereleaseOf? = some r then
      if b.inclusive then return some b.version
      else return some (← b.version.nextPrerelease)
    else if ← b.isBelow (Semver.lowestPrerelease r) then return some (Semver.lowestPrerelease r)
    else return none

def lowestRelease (lower : Option Bound) : Except Fault Semver :=
  match lower with
  | none   => .ok (Semver.ofRelease .zero)
  | some b =>
    if b.version.isPrerelease then .ok (Semver.ofRelease b.version.release)
    else if b.inclusive then .ok b.version
    else Semver.nextPatch b.version.release

def admitsPrereleaseOf (r : Release) (lower upper : Option Bound) : Except Fault Bool := do
  match ← lowestPrerelease? r lower with
  | none   => return false
  | some v => isBelowUpper upper v

def admitsRelease (lower upper : Option Bound) : Except Fault Bool := do
  isBelowUpper upper (← lowestRelease lower)

/-- The releases of a list that have a prerelease between two bounds. -/
def admitted (lower upper : Option Bound) : List Release → Except Fault (List Release)
  | []      => .ok []
  | r :: rs => do
    let ok ← admitsPrereleaseOf r lower upper
    let rest ← admitted lower upper rs
    return if ok then r :: rest else rest

/-! ### Normalization -/

/-- The bound at the release of a prerelease bound whose release is not admitted. -/
def settle (admitted : List Release) (inclusive : Bool) (b : Bound) : Bound :=
  match b.prereleaseOf? with
  | none   => b
  | some r => if r ∈ admitted then b else ⟨Semver.ofRelease r, inclusive⟩

/-- The interval between two bounds that lets in prereleases of the given releases only; none when
it would be empty. -/
def normalize (lower upper : Option Bound) (allowed : List Release) :
    Except Fault (Option Interval) := do
  let admitted ← admitted lower upper allowed
  let lower := lower.map (settle admitted true)
  let upper := upper.map (settle admitted false)
  if !admitted.isEmpty then return some ⟨lower, upper⟩
  else if ← admitsRelease lower upper then return some ⟨lower, upper⟩
  else return none

/-- The versions in both of two intervals; none when there are none. -/
def intersect (i j : Interval) : Except Fault (Option Interval) := do
  let lower ← Bound.tighterLower i.lower j.lower
  let upper ← Bound.tighterUpper i.upper j.upper
  normalize lower upper (i.prereleasesOf.filter (· ∈ j.prereleasesOf))

/-! ### Folding comparators -/

def tighten (i : Interval) : Comparator → Except Fault Interval
  | .any         => .ok i
  | .bounded o v =>
    match o with
    | .atLeast => return { i with lower := ← Bound.tighterLower i.lower (some ⟨v, true⟩) }
    | .above   => return { i with lower := ← Bound.tighterLower i.lower (some ⟨v, false⟩) }
    | .atMost  => return { i with upper := ← Bound.tighterUpper i.upper (some ⟨v, true⟩) }
    | .below   => return { i with upper := ← Bound.tighterUpper i.upper (some ⟨v, false⟩) }
    | .equal   => do
      let lower ← Bound.tighterLower i.lower (some ⟨v, true⟩)
      let upper ← Bound.tighterUpper i.upper (some ⟨v, true⟩)
      return ⟨lower, upper⟩

/-- Tighten two bounds by comparators, from the first to the last. -/
def tightenAll (i : Interval) : List Comparator → Except Fault Interval
  | []      => .ok i
  | c :: cs => do (← i.tighten c).tightenAll cs

/-- The releases of which a comparator has a prerelease, in the order of the comparators. -/
def prereleasesOfComparators (cs : List Comparator) : List Release :=
  (cs.filterMap Comparator.prereleaseOf?).eraseDups

/-- The interval of the versions that satisfy an alternative; none when there are none. -/
def ofAlternative (a : Alternative) : Except Fault (Option Interval) := do
  let bounds ← tightenAll ⟨none, none⟩ a
  normalize bounds.lower bounds.upper (prereleasesOfComparators a)

end Interval

end VersionConstraints
