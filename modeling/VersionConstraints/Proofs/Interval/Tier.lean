import VersionConstraints.Interval.Normalize
import VersionConstraints.Proofs.Semver.Precedence

/-!
# Tiers

A comparison can take two numerals for one, but it never mistakes the release of a version, nor
whether it is a prerelease. The tier of a version is what remains when its identifiers are
forgotten. Bounds that can be compared at all are compared by their tiers, as far as these differ.
-/

namespace VersionConstraints

/-- A release, or what lies directly below it: its prereleases. -/
abbrev Tier := Release ×ₗ Bool

def Tier.below (r : Release) : Tier := toLex (r, false)

def Tier.at (r : Release) : Tier := toLex (r, true)

lemma Tier.at_lt_below {r s : Release} : Tier.at r < Tier.below s ↔ r < s := by
  simp [Tier.at, Tier.below, Prod.Lex.toLex_lt_toLex]

lemma Tier.below_lt_at {r s : Release} : Tier.below r < Tier.at s ↔ r ≤ s := by
  simp [Tier.at, Tier.below, Prod.Lex.toLex_lt_toLex, le_iff_lt_or_eq]

lemma Tier.below_le_below {r s : Release} : Tier.below r ≤ Tier.below s ↔ r ≤ s := by
  rw [Tier.below, Tier.below, Prod.Lex.toLex_le_toLex]
  simp [le_iff_lt_or_eq]

lemma Tier.below_injective : Function.Injective Tier.below :=
  fun _ _ h => (Prod.mk.inj (toLex.injective h)).1

/-! ### Versions -/

namespace Semver

variable {v w : Semver} {r : Release}

def tier (v : Semver) : Tier := toLex (v.release, !v.isPrerelease)

/-- A version stands below a release exactly when it is a prerelease of it. -/
lemma tier_eq_below_iff : v.tier = Tier.below r ↔ v.isPrerelease = true ∧ v.release = r := by
  rw [tier, Tier.below, toLex_inj, Prod.mk.injEq, Bool.not_eq_false', and_comm]

@[simp] lemma order_self (v : Semver) : v.order v = .eq := by
  rw [order, (compares_compare v.release v.release).eq_eq.mpr rfl]
  cases v.prerelease with
  | nil => rfl
  | cons a as => exact Identifier.listOrder_self (a :: as)

/-- A lower tier is a smaller version, whichever way the two are compared. -/
lemma order_of_tier_lt (h : v.tier < w.tier) : v.order w = .lt ∧ w.order v = .gt := by
  have hvw := compares_compare v.release w.release
  have hwv := compares_compare w.release v.release
  rcases Prod.Lex.toLex_lt_toLex.mp h with hlt | ⟨heq, hlt⟩
  · rw [order, order, hvw.eq_lt.mpr hlt, hwv.eq_gt.mpr hlt]
    exact ⟨rfl, rfl⟩
  · have hrelease : v.release = w.release := heq
    have hprerelease : v.isPrerelease = true ∧ w.isPrerelease = false := by
      simpa [Bool.lt_iff] using hlt
    obtain ⟨a, as, hcons⟩ : ∃ a as, v.prerelease = a :: as :=
      List.exists_cons_of_ne_nil (by simpa [isPrerelease] using hprerelease.1)
    have hnil : w.prerelease = [] := by simpa [isPrerelease] using hprerelease.2
    rw [order, order, hvw.eq_eq.mpr hrelease, hwv.eq_eq.mpr hrelease.symm, hcons, hnil]
    exact ⟨rfl, rfl⟩

lemma tier_le_of_order_ne_gt (h : v.order w ≠ .gt) : v.tier ≤ w.tier :=
  not_lt.mp fun hlt => h (order_of_tier_lt hlt).2

lemma tier_le_of_order_ne_lt (h : v.order w ≠ .lt) : w.tier ≤ v.tier :=
  not_lt.mp fun hlt => h (order_of_tier_lt hlt).1

lemma tier_eq_of_order_eq (h : v.order w = .eq) : v.tier = w.tier :=
  le_antisymm (tier_le_of_order_ne_gt (by simp [h])) (tier_le_of_order_ne_lt (by simp [h]))

lemma comparable_ofRelease (hr : r.Safe) : (ofRelease r).Comparable :=
  (ordinary_ofRelease hr).regular.toComparable

lemma comparable_lowestPrerelease (hr : r.Safe) : (lowestPrerelease r).Comparable :=
  (ordinary_lowestPrerelease hr).regular.toComparable

end Semver

/-! ### Bounds -/

namespace Bound

variable {b : Bound} {v : Semver} {x y z : Option Bound} {t : Tier}

def Comparable (x : Option Bound) : Prop :=
  ∀ b ∈ x, b.version.Comparable

lemma comparable_none : Comparable none := nofun

lemma comparable_some : Comparable (some b) ↔ b.version.Comparable := by
  simp [Comparable]

lemma tier_eq_below_of_prereleaseOf? {r : Release} (h : b.prereleaseOf? = some r) :
    b.version.tier = Tier.below r := by
  rw [prereleaseOf?, Option.ite_none_right_eq_some, Option.some.injEq] at h
  exact Semver.tier_eq_below_iff.mpr h

/-- A bound below a version stands on no higher tier. -/
lemma tier_le_of_isBelow (hb : b.version.Comparable) (hv : v.Comparable)
    (h : b.isBelow v = .ok true) : b.version.tier ≤ v.tier := by
  obtain ⟨o, ho, h⟩ := bind_eq_ok.mp h
  apply Semver.tier_le_of_order_ne_lt
  rw [hv.compare_eq hb] at ho
  rw [Except.ok.inj ho]
  rintro rfl
  cases h

/-- A bound above a version stands on no lower tier. -/
lemma tier_le_of_isAbove (hb : b.version.Comparable) (hv : v.Comparable)
    (h : b.isAbove v = .ok true) : v.tier ≤ b.version.tier := by
  obtain ⟨o, ho, h⟩ := bind_eq_ok.mp h
  apply Semver.tier_le_of_order_ne_gt
  rw [hv.compare_eq hb] at ho
  rw [Except.ok.inj ho]
  rintro rfl
  cases h

/-- A bound on a lower tier is below the version. -/
lemma isBelow_of_tier_lt (hb : b.version.Comparable) (hv : v.Comparable)
    (h : b.version.tier < v.tier) : b.isBelow v = .ok true := by
  rw [isBelow, hv.compare_eq hb, (Semver.order_of_tier_lt h).2, ok_bind, pure_eq_ok]

/-- A bound on a higher tier is above the version. -/
lemma isAbove_of_tier_lt (hb : b.version.Comparable) (hv : v.Comparable)
    (h : v.tier < b.version.tier) : b.isAbove v = .ok true := by
  rw [isAbove, hv.compare_eq hb, (Semver.order_of_tier_lt h).1, ok_bind, pure_eq_ok]

/-! ### The tighter of two bounds -/

/-- Whether a lower bound is there and reaches up to a tier. -/
def ReachesUp (x : Option Bound) (t : Tier) : Prop :=
  ∃ b ∈ x, t ≤ b.version.tier

/-- Whether an upper bound is there and reaches down to a tier. -/
def ReachesDown (x : Option Bound) (t : Tier) : Prop :=
  ∃ b ∈ x, b.version.tier ≤ t

@[simp] lemma reachesUp_some {a : Bound} : ReachesUp (some a) t ↔ t ≤ a.version.tier := by
  simp [ReachesUp]

@[simp] lemma reachesDown_some {a : Bound} : ReachesDown (some a) t ↔ a.version.tier ≤ t := by
  simp [ReachesDown]

@[simp] lemma not_reachesUp_none : ¬ ReachesUp none t := by
  simp [ReachesUp]

@[simp] lemma not_reachesDown_none : ¬ ReachesDown none t := by
  simp [ReachesDown]

section Some

variable {a : Bound} (ha : a.version.Comparable) (hb : b.version.Comparable)

include ha hb

/-- The tighter of two lower bounds is one of them, on no lower a tier. -/
lemma tighterLower_some (h : tighterLower (some a) (some b) = .ok z) :
    z = some a ∧ b.version.tier ≤ a.version.tier ∨
      z = some b ∧ a.version.tier ≤ b.version.tier := by
  rw [tighterLower, ha.compare_eq hb, ok_bind] at h
  cases ho : a.version.order b.version with
  | gt =>
    rw [ho] at h
    cases h
    exact .inl ⟨rfl, Semver.tier_le_of_order_ne_lt (by simp [ho])⟩
  | lt =>
    rw [ho] at h
    cases h
    exact .inr ⟨rfl, Semver.tier_le_of_order_ne_gt (by simp [ho])⟩
  | eq =>
    rw [ho] at h
    cases h
    split
    · exact .inr ⟨rfl, Semver.tier_le_of_order_ne_gt (by simp [ho])⟩
    · exact .inl ⟨rfl, Semver.tier_le_of_order_ne_lt (by simp [ho])⟩

/-- The tighter of two upper bounds is one of them, on no higher a tier. -/
lemma tighterUpper_some (h : tighterUpper (some a) (some b) = .ok z) :
    z = some a ∧ a.version.tier ≤ b.version.tier ∨
      z = some b ∧ b.version.tier ≤ a.version.tier := by
  rw [tighterUpper, ha.compare_eq hb, ok_bind] at h
  cases ho : a.version.order b.version with
  | lt =>
    rw [ho] at h
    cases h
    exact .inl ⟨rfl, Semver.tier_le_of_order_ne_gt (by simp [ho])⟩
  | gt =>
    rw [ho] at h
    cases h
    exact .inr ⟨rfl, Semver.tier_le_of_order_ne_lt (by simp [ho])⟩
  | eq =>
    rw [ho] at h
    cases h
    split
    · exact .inr ⟨rfl, Semver.tier_le_of_order_ne_lt (by simp [ho])⟩
    · exact .inl ⟨rfl, Semver.tier_le_of_order_ne_gt (by simp [ho])⟩

end Some

/-- The tighter of two lower bounds is one of them and reaches up as far as both. -/
lemma tighterLower_reaches (hx : Comparable x) (hy : Comparable y)
    (h : tighterLower x y = .ok z) :
    (z = x ∨ z = y) ∧ ∀ t, ReachesUp x t ∨ ReachesUp y t → ReachesUp z t := by
  cases x with
  | none =>
    cases h
    exact ⟨.inr rfl, by simp⟩
  | some a =>
    cases y with
    | none =>
      cases h
      exact ⟨.inl rfl, by simp⟩
    | some b =>
      obtain ⟨rfl, hle⟩ | ⟨rfl, hle⟩ :=
        tighterLower_some (comparable_some.mp hx) (comparable_some.mp hy) h
      · refine ⟨.inl rfl, fun t ht => ht.elim id fun ht => ?_⟩
        exact reachesUp_some.mpr ((reachesUp_some.mp ht).trans hle)
      · refine ⟨.inr rfl, fun t ht => ht.elim (fun ht => ?_) id⟩
        exact reachesUp_some.mpr ((reachesUp_some.mp ht).trans hle)

/-- The tighter of two upper bounds is one of them and reaches down as far as both. -/
lemma tighterUpper_reaches (hx : Comparable x) (hy : Comparable y)
    (h : tighterUpper x y = .ok z) :
    (z = x ∨ z = y) ∧ ∀ t, ReachesDown x t ∨ ReachesDown y t → ReachesDown z t := by
  cases x with
  | none =>
    cases h
    exact ⟨.inr rfl, by simp⟩
  | some a =>
    cases y with
    | none =>
      cases h
      exact ⟨.inl rfl, by simp⟩
    | some b =>
      obtain ⟨rfl, hle⟩ | ⟨rfl, hle⟩ :=
        tighterUpper_some (comparable_some.mp hx) (comparable_some.mp hy) h
      · refine ⟨.inl rfl, fun t ht => ht.elim id fun ht => ?_⟩
        exact reachesDown_some.mpr (hle.trans (reachesDown_some.mp ht))
      · refine ⟨.inr rfl, fun t ht => ht.elim (fun ht => ?_) id⟩
        exact reachesDown_some.mpr (hle.trans (reachesDown_some.mp ht))

end Bound

end VersionConstraints
