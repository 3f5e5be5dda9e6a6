import VersionConstraints.Proofs.Interval.Normal
import VersionConstraints.Proofs.Semver.Canonical

/-!
# Intervals with canonical bounds

Putting the versions that canonical texts are read as for the versions of the bounds changes neither
the span of an interval nor whether it is normal.
-/

namespace VersionConstraints

namespace Bound

variable {b : Bound} {v : Semver} {x : Option Bound}

/-- The bound at the version that the canonical text of the bound's version is read as. -/
def canonical (b : Bound) : Bound :=
  ⟨b.version.canonical, b.inclusive⟩

/-- Making a lower bound canonical does not move its cut. -/
@[simp] lemma lowerCut?_canonical (x : Option Bound) :
    lowerCut? (x.map canonical) = lowerCut? x := by
  cases x <;> rfl

/-- Making an upper bound canonical does not move its cut. -/
@[simp] lemma upperCut?_canonical (x : Option Bound) :
    upperCut? (x.map canonical) = upperCut? x := by
  cases x <;> rfl

lemma Regular.canonical (h : Regular x) : Regular (x.map Bound.canonical) := by
  intro c hc
  obtain ⟨b, hb, rfl⟩ := Option.map_eq_some_iff.mp hc
  exact (h b hb).canonical

/-- The same versions are above a canonical lower bound. -/
lemma isBelow_canonical (hb : b.version.Comparable) (hv : v.Comparable) :
    b.canonical.isBelow v = b.isBelow v := by
  rw [isBelow, isBelow, ← hv.compare_canonical hb]
  rfl

/-- The same versions are below a canonical upper bound. -/
lemma isAbove_canonical (hb : b.version.Comparable) (hv : v.Comparable) :
    b.canonical.isAbove v = b.isAbove v := by
  rw [isAbove, isAbove, ← hv.compare_canonical hb]
  rfl

/-- Whether a version is below an upper bound does not depend on its build and grammar. -/
lemma isAbove_of_canonical (hb : b.version.Comparable) (hv : v.Comparable) :
    b.isAbove v.canonical = b.isAbove v := by
  rw [isAbove, isAbove, hv.canonical_compare hb]

end Bound

namespace Interval

variable {i : Interval} {v : Semver} {r : Release} {lower upper : Option Bound}

def canonical (i : Interval) : Interval :=
  ⟨i.lower.map Bound.canonical, i.upper.map Bound.canonical⟩

/-- Making an interval canonical does not move its cuts. -/
@[simp] lemma span_canonical (i : Interval) : i.canonical.span = i.span := by
  rw [span, span, canonical, Bound.lowerCut?_canonical, Bound.upperCut?_canonical]

lemma isBelowUpper_canonical (hupper : Bound.Comparable upper) (hv : v.Comparable) :
    isBelowUpper (upper.map Bound.canonical) v = isBelowUpper upper v := by
  cases upper with
  | none => rfl
  | some b => exact Bound.isAbove_canonical (hupper b rfl) hv

lemma isBelowUpper_of_canonical (hupper : Bound.Comparable upper) (hv : v.Comparable) :
    isBelowUpper upper v.canonical = isBelowUpper upper v := by
  cases upper with
  | none => rfl
  | some b => exact Bound.isAbove_of_canonical (hupper b rfl) hv

/-- The same releases are let in between canonical bounds. -/
lemma admitsPrereleaseOf_canonical (hlower : Bound.Comparable lower)
    (hupper : Bound.Comparable upper) (hr : r.Safe) :
    admitsPrereleaseOf r (lower.map Bound.canonical) (upper.map Bound.canonical) =
      admitsPrereleaseOf r lower upper := by
  have hlowest := Semver.comparable_lowestPrerelease hr
  cases lower with
  | none => exact isBelowUpper_canonical hupper hlowest
  | some b =>
    have hb : b.version.Comparable := hlower b rfl
    have hprerelease : b.canonical.prereleaseOf? = b.prereleaseOf? := rfl
    have hinclusive : b.canonical.inclusive = b.inclusive := rfl
    have hnext : b.canonical.version.nextPrerelease = b.version.nextPrerelease := rfl
    rw [Option.map_some, admitsPrereleaseOf, admitsPrereleaseOf, lowestPrerelease?,
      lowestPrerelease?, Bound.isBelow_canonical hb hlowest, hprerelease, hinclusive, hnext]
    split
    · split
      · exact (isBelowUpper_canonical hupper hb.canonical).trans
          (isBelowUpper_of_canonical hupper hb)
      · cases hw : b.version.nextPrerelease with
        | error f => rfl
        | ok w => exact isBelowUpper_canonical hupper (Semver.comparable_of_ofText hw)
    · cases b.isBelow (.lowestPrerelease r) with
      | error f => rfl
      | ok above =>
        cases above with
        | false => rfl
        | true => exact isBelowUpper_canonical hupper hlowest

/-- A release lies between canonical bounds if one lies between the bounds themselves. -/
lemma admitsRelease_canonical (hlower : Bound.Comparable lower)
    (hupper : Bound.Comparable upper) :
    admitsRelease (lower.map Bound.canonical) (upper.map Bound.canonical) =
      admitsRelease lower upper := by
  cases lower with
  | none => exact isBelowUpper_canonical hupper (Semver.comparable_ofRelease (by decide))
  | some b =>
    have hb : b.version.Comparable := hlower b rfl
    have hsafe : b.version.release.Safe := hb.wellFormed.release
    have hprerelease : b.canonical.version.isPrerelease = b.version.isPrerelease := rfl
    have hinclusive : b.canonical.inclusive = b.inclusive := rfl
    have hrelease : b.canonical.version.release = b.version.release := rfl
    rw [Option.map_some, admitsRelease, admitsRelease, lowestRelease, lowestRelease, hprerelease,
      hinclusive, hrelease]
    split
    · exact isBelowUpper_canonical hupper (Semver.comparable_ofRelease hsafe)
    · split
      · exact (isBelowUpper_canonical hupper hb.canonical).trans
          (isBelowUpper_of_canonical hupper hb)
      · cases hw : Semver.nextPatch b.version.release with
        | error f => rfl
        | ok w =>
          obtain ⟨rfl, hlt⟩ := Semver.eq_of_nextPatch hw
          have hnext : Release.Safe
              { b.version.release with patch := b.version.release.patch + 1 } :=
            ⟨hsafe.major_le, hsafe.minor_le, hlt⟩
          exact isBelowUpper_canonical hupper (Semver.comparable_ofRelease hnext)

/-- Normal intervals stay normal. -/
theorem Normal.canonical (h : i.Normal) (hi : i.Comparable) : i.canonical.Normal := by
  have hnames : i.canonical.prereleasesOf = i.prereleasesOf := by
    obtain ⟨lower, upper⟩ := i
    cases lower <;> cases upper <;> rfl
  constructor
  · intro r hr
    rw [hnames] at hr
    exact (admitsPrereleaseOf_canonical hi.lower hi.upper (hi.safe_of_mem hr)).trans
      (h.prerelease r hr)
  · intro hnil
    rw [hnames] at hnil
    exact (admitsRelease_canonical hi.lower hi.upper).trans (h.release hnil)

end Interval

end VersionConstraints
