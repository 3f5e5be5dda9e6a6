import VersionConstraints.Proofs.Constraint.Equality
import VersionConstraints.Proofs.Constraint.Representation

/-!
# Intersecting a constraint with itself

A constraint and itself make one that contains the same versions. It need not have the same
structure: overlapping intervals are kept apart, so what two of them have in common is one more
interval of the intersection. Nothing is added if and only if each such interval is there already,
and certainly where no two intervals have anything in common.
-/

namespace VersionConstraints

namespace Range

variable {is js : Range}

/-! ### Intervals in common -/

/-- Whether what two intervals of a range have in common is always an interval of it. -/
def MeetClosed (is : Range) : Prop :=
  ∀ i ∈ is, ∀ j ∈ is, ∀ k, i.intersect j = .ok (some k) → ∃ l ∈ is, k.compare l = .ok .eq

/-- Whether different intervals of a range have nothing in common. -/
def Disjoint (is : Range) : Prop :=
  ∀ i ∈ is, ∀ j ∈ is, i ≠ j → i.intersect j = .ok none

instance (is : Range) : Decidable is.Disjoint :=
  inferInstanceAs (Decidable (∀ i ∈ is, ∀ j ∈ is, i ≠ j → i.intersect j = .ok none))

/-- Disjoint intervals have no meets but themselves. -/
lemma Disjoint.meetClosed (h : is.Disjoint) (hnormal : is.Normal) : is.MeetClosed := by
  intro i hi j hj k hk
  by_cases hij : i = j
  · obtain ⟨hcomparable, hi'⟩ := hnormal i hi
    subst hij
    rw [hi'.intersect_self hcomparable] at hk
    cases hk
    exact ⟨i, hi, hcomparable.compare_self⟩
  · rw [h i hi j hj hij] at hk
    cases hk

/-! ### Intersections of a range with itself -/

/-- A range keeps its spans when it is intersected with itself. -/
lemma spans_subset_meets (his : is.Regular) (hnormal : is.Normal) :
    is.spans ⊆ Span.meets is.spans is.spans := by
  rintro _ ⟨i, hi, rfl⟩
  obtain ⟨hcomparable, hi'⟩ := hnormal i hi
  obtain ⟨-, hspan, -⟩ :=
    Interval.intersect_spec (his i hi) (his i hi) (hi'.intersect_self hcomparable)
  obtain ⟨w, -, hw⟩ := hi'.exists_holds (his i hi)
  exact ⟨⟨_, hw⟩, _, ⟨i, hi, rfl⟩, _, ⟨i, hi, rfl⟩, hspan.symm⟩

/-- A range has all spans of its intersection with itself if and only if it is closed. -/
lemma meets_subset_spans_iff (his : is.Regular) (h : intersect is is = .ok js) :
    Span.meets is.spans is.spans ⊆ is.spans ↔ is.MeetClosed := by
  obtain ⟨all, hall, -⟩ := bind_eq_ok.mp h
  obtain ⟨-, hmem⟩ := intersectAll_spec hall
  rw [← spans_intersectAll his his hall]
  constructor
  · intro hsub i hi j hj k hk
    obtain ⟨l, hl, hspan⟩ := hsub ⟨k, (hmem k).mpr ⟨i, hi, j, hj, hk⟩, rfl⟩
    have hregular := (Interval.intersect_spec (his i hi) (his j hj) hk).1
    exact ⟨l, hl, (Interval.compare_eq_ok_iff hregular (his l hl)).mpr hspan.symm⟩
  · rintro hclosed _ ⟨k, hk, rfl⟩
    obtain ⟨i, hi, j, hj, hij⟩ := (hmem k).mp hk
    obtain ⟨l, hl, hcompare⟩ := hclosed i hi j hj k hij
    have hregular := (Interval.intersect_spec (his i hi) (his j hj) hij).1
    exact ⟨l, hl, ((Interval.compare_eq_ok_iff hregular (his l hl)).mp hcompare).symm⟩

/-- The intersection of a range with itself is equal to it if and only if the range is closed. -/
lemma equal_spec_of_intersect_self (his : is.Regular) (hnormal : is.Normal) (hasc : is.Ascending)
    (h : intersect is is = .ok js) :
    Yields (equal js is) fun same => same = true ↔ is.MeetClosed := by
  have hspec := intersect_spec his his h
  refine (equal_spec_of_ascending hspec.regular his hspec.ascending hasc).imp fun same hsame => ?_
  rw [hsame, hspec.spans_eq, ← meets_subset_spans_iff his h]
  exact ⟨fun heq => heq.subset, fun hsub => hsub.antisymm (spans_subset_meets his hnormal)⟩

/-- A range that is not empty is not empty when it is intersected with itself. -/
lemma ne_nil_of_intersect_self (his : is.Regular) (hnormal : is.Normal) (hne : is ≠ [])
    (h : intersect is is = .ok js) : js ≠ [] := by
  rintro rfl
  obtain ⟨i, hi⟩ := List.exists_mem_of_ne_nil is hne
  have hspan := spans_subset_meets his hnormal ⟨i, hi, rfl⟩
  rw [← (intersect_spec his his h).spans_eq] at hspan
  obtain ⟨j, hj, -⟩ := hspan
  cases hj

end Range

namespace Constraint

variable {c d : Constraint}

/-! ### Intersections of a constraint with itself -/

/-- A constraint without a range is its own intersection with itself. -/
lemma intersect_self_of_form_ne (hc : c.form ≠ .range) : c.intersect c = .ok c := by
  cases c with
  | range is t => exact absurd rfl hc
  | universal | empty => rfl
  | revision a | branch a | literal a => simp [intersect]

/-- Intersecting a constraint with itself does not change what it contains. -/
lemma Makes.contains_eq_of_self (h : Makes c c d) (hc : c.Regular) {v : Version}
    (hv : v.Comparable) : ∃ ok, c.contains v = .ok ok ∧ d.contains v = .ok ok := by
  obtain ⟨p, q, hp, hq, hpq⟩ | ⟨-, -, hform, -⟩ := h.contains_eq hc hc hv
  · obtain rfl : p = q := Except.ok.inj (hp.symm.trans hq)
    exact ⟨p, hp, by rw [hpq, Bool.and_self]⟩
  · exact absurd rfl hform

/-- A reachable constraint and itself make one that contains the same versions. It is equal to the
constraint if and only if what two intervals have in common is always an interval of the
constraint; so it is where different intervals have nothing in common. -/
theorem equal_intersect_self_iff (hc : c.Reachable) (h : c.intersect c = .ok d) :
    (∀ v : Version, v.Comparable → ∃ ok, c.contains v = .ok ok ∧ d.contains v = .ok ok) ∧
    (∃ same, d.equal c = .ok same ∧ (same = true ↔ c.intervals.MeetClosed)) ∧
    (c.intervals.Disjoint → d.equal c = .ok true) := by
  obtain ⟨hregular, hnormal⟩ := hc.regular_and_normal
  refine ⟨fun v hv => (makes_of_intersect hregular hregular h).contains_eq_of_self hregular hv, ?_⟩
  -- Only ranges are computed anew; all others are their own intersection.
  by_cases hrange : c.form = .range
  · cases c <;> cases hrange
    next is t =>
      obtain ⟨js, hjs, hd⟩ := bind_eq_ok.mp h
      obtain ⟨u, -, hd⟩ := bind_eq_ok.mp hd
      obtain ⟨j, js, rfl⟩ := List.exists_cons_of_ne_nil
        (Range.ne_nil_of_intersect_self hregular hnormal.2 hnormal.1 hjs)
      cases hd
      obtain ⟨same, hsame, hspec⟩ :=
        Range.equal_spec_of_intersect_self hregular hnormal.2 hc.ascending hjs
      exact ⟨⟨same, hsame, hspec⟩,
        fun hdisjoint => hsame.trans (congrArg _ (hspec.mpr (hdisjoint.meetClosed hnormal.2)))⟩
  · rw [intersect_self_of_form_ne hrange] at h
    cases h
    have hequal : c.equal c = .ok true := (equal_iff hregular hregular).mpr rfl
    have hnil : c.intervals = [] := by
      cases c <;> first | rfl | exact absurd rfl hrange
    refine ⟨⟨true, hequal, iff_of_true rfl ?_⟩, fun _ => hequal⟩
    rw [hnil]
    exact nofun

theorem equal_intersect_self_sample : ∃ d, sampleGapped.Reachable ∧
    sampleGapped.intersect sampleGapped = .ok d ∧ d ≠ sampleGapped ∧
      sampleGapped.intervals.Disjoint ∧ d.equal sampleGapped = .ok true := by
  have h : sampleGapped.intersect sampleGapped =
      .ok (.range sampleGapped.intervals "<1.0.0 || >=1.2.0-beta.3 <2.0.0") := by decide +kernel
  have hdisjoint : sampleGapped.intervals.Disjoint := by decide +kernel
  exact ⟨_, reachable_sampleGapped, h, by decide, hdisjoint,
    (equal_intersect_self_iff reachable_sampleGapped h).2.2 hdisjoint⟩

/-! ### Overlapping intervals -/

/-- The range `<2.0.0 || >=1.0.0`. -/
def overlapping : Range :=
  [⟨none, some ⟨.ofRelease ⟨2, 0, 0⟩, false⟩⟩, ⟨some ⟨.ofRelease ⟨1, 0, 0⟩, true⟩, none⟩]

lemma reachable_overlapping : Reachable (.range overlapping "<2.0.0 || >=1.0.0") := by
  have hdeclared : Requirement.ofDeclaration "version" "<2.0.0 || >=1.0.0" .strict =
      .ok ⟨.range overlapping "<2.0.0 || >=1.0.0", []⟩ := by decide +kernel
  have hbound (r : Release) (hr : r.Safe) (inclusive : Bool) :
      Bound.Regular (some ⟨.ofRelease r, inclusive⟩) :=
    Bound.regular_some.mpr (Semver.ordinary_ofRelease hr).regular
  refine .declared hdeclared (List.forall_mem_cons.mpr
    ⟨⟨Bound.regular_none, hbound _ (by decide) _⟩, List.forall_mem_singleton.mpr
      ⟨hbound _ (by decide) _, Bound.regular_none⟩⟩)

/-- Overlapping intervals are kept apart, with what they have in common between them. -/
theorem intersect_overlapping_self : ∃ c d : Constraint,
    c.Reachable ∧ c.intersect c = .ok d ∧ d.equal c = .ok false ∧
      d.text = "<2.0.0 || >=1.0.0 <2.0.0 || >=1.0.0" := by
  refine ⟨_, .range
    [⟨none, some ⟨.ofRelease ⟨2, 0, 0⟩, false⟩⟩,
      ⟨some ⟨.ofRelease ⟨1, 0, 0⟩, true⟩, some ⟨.ofRelease ⟨2, 0, 0⟩, false⟩⟩,
      ⟨some ⟨.ofRelease ⟨1, 0, 0⟩, true⟩, none⟩]
    "<2.0.0 || >=1.0.0 <2.0.0 || >=1.0.0", reachable_overlapping, ?_, ?_, rfl⟩
  · decide +kernel
  · decide +kernel

end Constraint

end VersionConstraints
