import VersionConstraints.Proofs.Interval.Limits

/-!
# What an interval admits

Whether a release is admitted depends on one candidate, the lowest of its prereleases above the
lower bound. The answer is right for all of them: a release is admitted exactly if an ordinary
prerelease of it lies between the bounds. So a normal interval contains a prerelease of each release
that one of its bounds is a prerelease of. It is also its own intersection with itself.
-/

namespace VersionConstraints

namespace Interval

variable {i : Interval} {lower upper : Option Bound} {r : Release} {v : Semver}

/-! ### Prereleases between bounds -/

/-- An ordinary prerelease of a release that lies between two bounds. -/
structure IsPrereleaseBetween (r : Release) (lower upper : Option Bound) (v : Semver) : Prop where
  ordinary : v.Ordinary
  isPrerelease : v.isPrerelease = true
  release_eq : v.release = r
  above : isAboveLower lower v = .ok true
  below : isBelowUpper upper v = .ok true

/-- To lie between two bounds is to have a place between their cuts. -/
lemma isPrereleaseBetween_iff (hlower : Bound.Regular lower) (hupper : Bound.Regular upper)
    (hv : v.Ordinary) :
    IsPrereleaseBetween r lower upper v ↔ v.precedence ∈ prereleasesBetween lower upper r := by
  have hcomparable : v.Comparable := hv.regular.toComparable
  rw [prereleasesBetween, Set.mem_ofPred_eq, Span.Between,
    ← (isAboveLower_spec hlower hcomparable).eq_ok_true_iff,
    ← (isBelowUpper_spec hupper hcomparable).eq_ok_true_iff, Cut.before,
    Cut.beside_precedence_mem_zone]
  constructor
  · exact fun h => ⟨⟨h.isPrerelease, h.release_eq⟩, h.above, h.below⟩
  · rintro ⟨⟨hp, hrelease⟩, habove, hbelow⟩
    exact ⟨hv, hp, hrelease, habove, hbelow⟩

/-- A release is admitted exactly if an ordinary prerelease of it lies between the bounds. -/
theorem admitsPrereleaseOf_iff (hlower : Bound.Regular lower) (hupper : Bound.Regular upper)
    (hr : r.Safe) {found : Bool} (h : admitsPrereleaseOf r lower upper = .ok found) :
    found = true ↔ ∃ v, IsPrereleaseBetween r lower upper v := by
  have hdetects := admitsPrereleaseOf_spec hlower hupper hr h
  constructor
  · intro hfound
    obtain ⟨w, hw, hbetween⟩ := hdetects.exists_of_true hfound
    obtain ⟨v, hv, hplace⟩ := hw.exists_ordinary_at
    exact ⟨v, (isPrereleaseBetween_iff hlower hupper hv).mpr (hplace ▸ hbetween)⟩
  · rintro ⟨v, hv⟩
    exact hdetects.iff.mpr ⟨_, (isPrereleaseBetween_iff hlower hupper hv.ordinary).mp hv⟩

/-! ### Prerelease bounds -/

def HasPrereleaseBound (i : Interval) (r : Release) : Prop :=
  ∃ b, (b ∈ i.lower ∨ b ∈ i.upper) ∧ b.version.isPrerelease = true ∧ b.version.release = r

lemma mem_prereleasesOf_iff_hasPrereleaseBound : r ∈ i.prereleasesOf ↔ i.HasPrereleaseBound r := by
  simp only [mem_prereleasesOf_iff, HasPrereleaseBound, Bound.prereleaseOf?_eq_some, or_and_right,
    exists_or]

/-- A prerelease between the bounds is in the interval if one of them is a prerelease of its
release. -/
lemma IsPrereleaseBetween.contains (h : IsPrereleaseBetween r i.lower i.upper v)
    (hr : i.HasPrereleaseBound r) : i.contains v = .ok true := by
  have hmem : v.release ∈ i.prereleasesOf :=
    mem_prereleasesOf_iff_hasPrereleaseBound.mpr (h.release_eq ▸ hr)
  rw [Interval.contains, h.above, ok_bind, h.below, ok_bind, h.isPrerelease, decide_eq_true hmem]
  rfl

/-- A normal interval contains a prerelease of each release that a bound is a prerelease of. -/
theorem Normal.exists_contains_prerelease (h : i.Normal) (hi : i.Regular)
    (hr : i.HasPrereleaseBound r) :
    ∃ v : Semver, v.Ordinary ∧ v.isPrerelease = true ∧ v.release = r ∧
      i.contains v = .ok true := by
  have hmem := mem_prereleasesOf_iff_hasPrereleaseBound.mpr hr
  obtain ⟨v, hv⟩ := (admitsPrereleaseOf_iff hi.lower hi.upper (hi.safe_of_mem hmem)
    (h.prerelease r hmem)).mp rfl
  exact ⟨v, hv.ordinary, hv.isPrerelease, hv.release_eq, hv.contains hr⟩

end Interval

/-! ### An interval and itself -/

namespace Bound

variable {x : Option Bound}

/-- No lower bound is tighter than itself. -/
lemma tighterLower_self (hx : Comparable x) : tighterLower x x = .ok x := by
  cases x with
  | none => rfl
  | some b =>
    have hb : b.version.Comparable := hx b rfl
    rw [tighterLower, hb.compare_eq hb, Semver.order_self, ok_bind]
    simp

/-- No upper bound is tighter than itself. -/
lemma tighterUpper_self (hx : Comparable x) : tighterUpper x x = .ok x := by
  cases x with
  | none => rfl
  | some b =>
    have hb : b.version.Comparable := hx b rfl
    rw [tighterUpper, hb.compare_eq hb, Semver.order_self, ok_bind]
    simp

lemma compareLower_self (hx : Comparable x) : compareLower x x = .ok .eq := by
  cases x with
  | none => rfl
  | some b =>
    have hb : b.version.Comparable := hx b rfl
    rw [compareLower, hb.compare_eq hb, Semver.order_self, ok_bind]
    cases b.inclusive <;> rfl

lemma compareUpper_self (hx : Comparable x) : compareUpper x x = .ok .eq := by
  cases x with
  | none => rfl
  | some b =>
    have hb : b.version.Comparable := hx b rfl
    rw [compareUpper, hb.compare_eq hb, Semver.order_self, ok_bind]
    cases b.inclusive <;> rfl

end Bound

namespace Interval

variable {i : Interval}

/-- An interval compares as equal to itself. -/
lemma Comparable.compare_self (hi : i.Comparable) : i.compare i = .ok .eq := by
  rw [compare, Bound.compareLower_self hi.lower, ok_bind]
  exact Bound.compareUpper_self hi.upper

/-- Intersecting a normal interval with itself changes nothing. -/
theorem Normal.intersect_self (h : i.Normal) (hi : i.Comparable) :
    i.intersect i = .ok (some i) := by
  rw [intersect, Bound.tighterLower_self hi.lower, ok_bind, Bound.tighterUpper_self hi.upper,
    ok_bind]
  exact h.normalize_eq fun r => by simp

end Interval

end VersionConstraints
