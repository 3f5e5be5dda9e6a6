import VersionConstraints.Constraint.Basic
import VersionConstraints.Version

/-!
# The algebra of constraints

The universal constraint is the identity of intersection and the empty one absorbs. Two ranges
intersect interval by interval; two other constraints of one form agree on an equal key, and all
other pairs have nothing in common.
-/

namespace VersionConstraints

namespace Constraint

/-! ### Membership -/

/-- Whether a version satisfies a constraint. A version without the facet that the constraint asks
for does not. -/
def contains (c : Constraint) (v : Version) : Except Fault Bool :=
  match c with
  | .universal   => .ok true
  | .empty       => .ok false
  | .range is _  =>
    match v.semver? with
    | none   => .ok false
    | some s => Range.contains s is
  | .revision id => .ok (v.revision? = some id)
  | .branch name => .ok (v.branch? = some name)
  | .literal t   => .ok (v.literal? = some t)

/-! ### Intersection -/

/-- The constraint of the versions in both of two ranges, displayed with its canonical text. -/
def intersectRanges (is js : Range) : Except Fault Constraint := do
  let ks ← Range.intersect is js
  return ofRange ks (String.ofList (← Range.text ks))

/-- The constraint that two constraints make together. -/
def intersect : Constraint → Constraint → Except Fault Constraint
  | .universal, d            => .ok d
  | c, .universal            => .ok c
  | .range is _, .range js _ => intersectRanges is js
  | .revision a, .revision b => .ok (if a = b then .revision a else .empty)
  | .branch a, .branch b     => .ok (if a = b then .branch a else .empty)
  | .literal a, .literal b   => .ok (if a = b then .literal a else .empty)
  | _, _                     => .ok .empty

/-- Intersect a constraint with others, one after the other, until nothing is left. -/
def intersectFrom (c : Constraint) : List Constraint → Except Fault Constraint
  | []      => .ok c
  | d :: ds => do
    let e ← c.intersect d
    if e.isEmpty then return e
    else e.intersectFrom ds

def intersectAll (cs : List Constraint) : Except Fault Constraint :=
  intersectFrom .universal cs

def compatible (c d : Constraint) : Except Fault Bool :=
  return !(← c.intersect d).isEmpty

/-! ### Equality -/

/-- Whether two constraints have the same structure. Ranges are the same when their intervals are,
whatever their text. -/
def equal : Constraint → Constraint → Except Fault Bool
  | .universal, .universal   => .ok true
  | .empty, .empty           => .ok true
  | .range is _, .range js _ => Range.equal is js
  | .revision a, .revision b => .ok (a = b)
  | .branch a, .branch b     => .ok (a = b)
  | .literal a, .literal b   => .ok (a = b)
  | _, _                     => .ok false

end Constraint

end VersionConstraints
