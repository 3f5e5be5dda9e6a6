import VersionConstraints.Proofs.Interval.Meaning
import VersionConstraints.Proofs.Interval.Read
import VersionConstraints.Proofs.Semver.Confusion

/-!
# The orders of bounds

The comparisons of lower bounds, of upper bounds and of intervals compare cuts, so they are total
preorders: what compares as equal agrees in the canonical texts of the versions and in whether they
are included. The tighter of two lower bounds is the later one in its order, and the tighter of two
upper bounds the earlier one. What is beyond the tighter bound is beyond both.
-/

namespace VersionConstraints

/-! ### Agreement -/

namespace Bound

variable {a b : Bound} {x y : Option Bound}

/-- Whether two bounds have one canonical text and are both inclusive or both exclusive. -/
structure Agree (a b : Bound) : Prop where
  text_eq : a.version.text = b.version.text
  inclusive_eq : a.inclusive = b.inclusive

/-- For comparable bounds, agreeing in order and inclusion is being alike. -/
lemma agree_iff_alike (ha : a.version.Comparable) (hb : b.version.Comparable) :
    a.Agree b ↔ a.Alike b := by
  constructor
  · intro h
    obtain ⟨hrelease, hprerelease⟩ := (ha.text_eq_iff hb).mp h.text_eq
    exact ⟨hrelease, hprerelease, h.inclusive_eq⟩
  · exact fun h => ⟨h.text_eq, h.inclusive⟩

/-- Bounds that are absent or agree are absent or alike. -/
lemma rel_alike_iff (hx : Regular x) (hy : Regular y) :
    Option.Rel Alike x y ↔ Option.Rel Agree x y := by
  constructor
  · intro h
    cases h with
    | none => exact .none
    | some hab =>
      exact .some ((agree_iff_alike (hx _ rfl).toComparable (hy _ rfl).toComparable).mpr hab)
  · intro h
    cases h with
    | none => exact .none
    | some hab =>
      exact .some ((agree_iff_alike (hx _ rfl).toComparable (hy _ rfl).toComparable).mp hab)

lemma Alike.precedence_eq (h : a.Alike b) : a.version.precedence = b.version.precedence := by
  rw [Semver.precedence, Semver.precedence, h.release, h.prerelease]

/-- Two lower bounds have one cut exactly when they agree. -/
lemma lowerCut?_eq_iff (hx : Regular x) (hy : Regular y) :
    lowerCut? x = lowerCut? y ↔ Option.Rel Agree x y := by
  rw [← rel_alike_iff hx hy]
  refine ⟨alike_of_lowerCut?_eq hx hy, ?_⟩
  intro h
  cases h with
  | none => rfl
  | some hab => rw [lowerCut?, lowerCut?, lowerCut, lowerCut, hab.precedence_eq, hab.inclusive]

/-- Two upper bounds have one cut exactly when they agree. -/
lemma upperCut?_eq_iff (hx : Regular x) (hy : Regular y) :
    upperCut? x = upperCut? y ↔ Option.Rel Agree x y := by
  rw [← rel_alike_iff hx hy]
  refine ⟨alike_of_upperCut?_eq hx hy, ?_⟩
  intro h
  cases h with
  | none => rfl
  | some hab => rw [upperCut?, upperCut?, upperCut, upperCut, hab.precedence_eq, hab.inclusive]

end Bound

namespace Interval

variable {i j : Interval}

/-- Whether the bounds of two intervals are absent on the same sides and agree on the others. -/
structure Agree (i j : Interval) : Prop where
  lower : Option.Rel Bound.Agree i.lower j.lower
  upper : Option.Rel Bound.Agree i.upper j.upper

/-- Two regular intervals have one span exactly when their bounds agree. -/
lemma span_eq_iff (hi : i.Regular) (hj : j.Regular) : i.span = j.span ↔ i.Agree j := by
  constructor
  · intro h
    exact ⟨(Bound.lowerCut?_eq_iff hi.lower hj.lower).mp (congrArg Span.lower h),
      (Bound.upperCut?_eq_iff hi.upper hj.upper).mp (congrArg Span.upper h)⟩
  · intro h
    exact Span.ext ((Bound.lowerCut?_eq_iff hi.lower hj.lower).mpr h.lower)
      ((Bound.upperCut?_eq_iff hi.upper hj.upper).mpr h.upper)

end Interval

/-! ### The orders -/

namespace Bound

/-- Lower bounds are compared as their cuts are. -/
lemma comparedBy_lowerCut? : ComparedBy compareLower lowerCut? { x | Regular x } :=
  fun _ hx _ hy => compareLower_spec hx hy

/-- Upper bounds are compared as their cuts are. -/
lemma comparedBy_upperCut? : ComparedBy compareUpper upperCut? { x | Regular x } :=
  fun _ hx _ hy => compareUpper_spec hx hy

/-- The comparison of lower bounds is a total preorder, exact up to agreement. -/
theorem compareLower_totalPreorder :
    TotalPreorder compareLower { x | Regular x } (Option.Rel Agree) :=
  comparedBy_lowerCut?.totalPreorder fun _ hx _ hy => lowerCut?_eq_iff hx hy

/-- The comparison of upper bounds is a total preorder, exact up to agreement. -/
theorem compareUpper_totalPreorder :
    TotalPreorder compareUpper { x | Regular x } (Option.Rel Agree) :=
  comparedBy_upperCut?.totalPreorder fun _ hx _ hy => upperCut?_eq_iff hx hy

end Bound

namespace Interval

/-- The comparison of intervals is a total preorder, exact up to agreement. -/
theorem compare_totalPreorder : TotalPreorder Interval.compare { i | i.Regular } Agree :=
  comparedBy_span.totalPreorder fun _ hi _ hj => span_eq_iff hi hj

end Interval

/-! ### The tighter of two bounds -/

namespace Bound

variable {x y : Option Bound}

/-- A bound is the tighter one of two: it is one of them, neither of them is tighter, and a version
is beyond it if it is beyond both. -/
structure IsTighter (NotTighter : Option Bound → Option Bound → Prop)
    (beyond : Option Bound → Semver → Except Fault Bool) (x y z : Option Bound) : Prop where
  eq_or_eq : z = x ∨ z = y
  left : NotTighter x z
  right : NotTighter y z
  beyond_eq : ∀ v : Semver, v.Comparable →
    ∃ p q, beyond x v = .ok p ∧ beyond y v = .ok q ∧ beyond z v = .ok (p && q)

/-- The tighter lower bound is a maximum of the lower bounds. -/
theorem tighterLower_isTighter (hx : Regular x) (hy : Regular y) :
    Yields (tighterLower x y) (IsTighter (NotAfter compareLower) Interval.isAboveLower x y) := by
  obtain ⟨z, hz, hregular, hmax⟩ := tighterLower_spec hx hy
  refine ⟨z, hz, eq_or_eq_of_tighterLower hz, ?_, ?_, ?_⟩
  · rw [comparedBy_lowerCut?.notAfter_iff hx hregular, hmax]
    exact le_max_left _ _
  · rw [comparedBy_lowerCut?.notAfter_iff hy hregular, hmax]
    exact le_max_right _ _
  · intro v hv
    refine (Interval.isAboveLower_spec hx hv).exists_and (Interval.isAboveLower_spec hy hv)
      (Interval.isAboveLower_spec hregular hv) ?_
    rw [hmax, max_le_iff]

/-- The tighter upper bound is a minimum of the upper bounds. -/
theorem tighterUpper_isTighter (hx : Regular x) (hy : Regular y) :
    Yields (tighterUpper x y)
      (IsTighter (fun w z => NotAfter compareUpper z w) Interval.isBelowUpper x y) := by
  obtain ⟨z, hz, hregular, hmin⟩ := tighterUpper_spec hx hy
  refine ⟨z, hz, eq_or_eq_of_tighterUpper hz, ?_, ?_, ?_⟩
  · rw [comparedBy_upperCut?.notAfter_iff hregular hx, hmin]
    exact min_le_left _ _
  · rw [comparedBy_upperCut?.notAfter_iff hregular hy, hmin]
    exact min_le_right _ _
  · intro v hv
    refine (Interval.isBelowUpper_spec hx hv).exists_and (Interval.isBelowUpper_spec hy hv)
      (Interval.isBelowUpper_spec hregular hv) ?_
    rw [hmin, lt_min_iff]

end Bound

end VersionConstraints
