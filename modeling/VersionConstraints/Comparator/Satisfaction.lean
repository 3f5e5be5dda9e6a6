import VersionConstraints.Comparator.Basic

/-!
# Satisfaction of comparators

What a comparator and an alternative mean for a version, by the order of versions and without
intervals. A prerelease satisfies an alternative only when one of the comparators is, besides, a
prerelease of the same release.
-/

namespace VersionConstraints

namespace Operator

/-- Whether an operator allows a version that compares in a given way to the comparator's. -/
def Allows : Operator → Ordering → Prop
  | .equal, o   => o = .eq
  | .below, o   => o = .lt
  | .atMost, o  => o ≠ .gt
  | .above, o   => o = .gt
  | .atLeast, o => o ≠ .lt

instance (o : Operator) (c : Ordering) : Decidable (o.Allows c) := by
  cases o <;> unfold Allows <;> infer_instance

end Operator

namespace Comparator

def Satisfies (v : Semver) : Comparator → Prop
  | .any         => True
  | .bounded o w => o.Allows (v.order w)

instance (v : Semver) (c : Comparator) : Decidable (c.Satisfies v) := by
  cases c <;> unfold Satisfies <;> infer_instance

end Comparator

namespace Alternative

def Satisfies (v : Semver) (a : Alternative) : Prop :=
  (∀ c ∈ a, c.Satisfies v) ∧
    (v.isPrerelease = true → ∃ c ∈ a, c.prereleaseOf? = some v.release)

instance (v : Semver) (a : Alternative) : Decidable (Satisfies v a) := by
  unfold Satisfies
  infer_instance

end Alternative

end VersionConstraints
