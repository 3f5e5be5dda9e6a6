import VersionConstraints.Interval.Basic
import VersionConstraints.Proofs.Interval.Tier

/-!
# Intervals of one version

The interval of one version contains the versions that compare as equal to it: the bounds leave no
other ones, and the prereleases among them are of the release of the bounds.
-/

namespace VersionConstraints

namespace Interval

variable {v w : Semver}

/-- The interval of one version contains what compares as equal to the version. -/
theorem contains_exact (hv : v.Comparable) (hw : w.Comparable) :
    (exact v).contains w = .ok (decide (w.order v = .eq)) := by
  have hcompare : w.compare v = .ok (w.order v) := hw.compare_eq hv
  have hlower : isAboveLower (exact v).lower w = .ok (decide (w.order v ≠ .lt)) := by
    simp only [exact, isAboveLower, Bound.isBelow, hcompare, ok_bind]
    cases w.order v <;> rfl
  have hupper : isBelowUpper (exact v).upper w = .ok (decide (w.order v ≠ .gt)) := by
    simp only [exact, isBelowUpper, Bound.isAbove, hcompare, ok_bind]
    cases w.order v <;> rfl
  rw [contains, hlower, hupper]
  cases ho : w.order v with
  | lt => rfl
  | gt => rfl
  | eq =>
    obtain ⟨hrelease, hprerelease⟩ :=
      Prod.mk.inj (toLex.injective (Semver.tier_eq_of_order_eq ho))
    have hadmitted : (!w.isPrerelease || decide (w.release ∈ (exact v).prereleasesOf)) = true := by
      cases hp : w.isPrerelease with
      | false => rfl
      | true =>
        rw [hp, Bool.not_inj_iff] at hprerelease
        simp [exact, prereleasesOf, Bound.prereleaseOf?, ← hprerelease, hrelease]
    simp only [ok_bind, pure_eq_ok, hadmitted]
    rfl

/-- The intervals of two versions that compare as equal compare as equal. -/
lemma compare_exact (hv : v.Comparable) (hw : w.Comparable) (h : v.order w = .eq) :
    (exact v).compare (exact w) = .ok .eq := by
  have hcompare : v.compare w = .ok .eq := by rw [hv.compare_eq hw, h]
  simp only [compare, exact, Bound.compareLower, Bound.compareUpper, hcompare, ok_bind]
  rfl

end Interval

end VersionConstraints
