import VersionConstraints.Proofs.Interval.Order
import VersionConstraints.Proofs.Range.Canonical

/-!
# The canonical form of a list of intervals

Since the comparison of intervals is a total preorder, to sort a list and to drop what repeats what
stands before it gives a canonical form: the lists with equal ones are those with the same intervals,
up to intervals that compare as equal.
-/

namespace VersionConstraints

namespace Range

variable {is js ks : Range}

/-- Whether each interval of either list compares as equal to one of the other list. -/
structure SameIntervals (is js : List Interval) : Prop where
  forth : ∀ i ∈ is, ∃ j ∈ js, i.compare j = .ok .eq
  back : ∀ j ∈ js, ∃ i ∈ is, j.compare i = .ok .eq

/-- Whether a list has the intervals of another one, in strictly increasing order. -/
structure IsCanonicalOf (ks is : Range) : Prop where
  subset : ∀ k ∈ ks, k ∈ is
  same : SameIntervals ks is
  increasing : ks.Pairwise fun i j => i.compare j = .ok .lt

/-- One range has the spans of another if each interval has an equal one there. -/
lemma spans_subset_iff (his : is.Regular) (hjs : js.Regular) :
    is.spans ⊆ js.spans ↔ ∀ i ∈ is, ∃ j ∈ js, i.compare j = .ok .eq := by
  have heq {i j : Interval} (hi : i ∈ is) (hj : j ∈ js) :
      i.compare j = .ok .eq ↔ i.span = j.span :=
    Interval.compare_eq_ok_iff (his i hi) (hjs j hj)
  constructor
  · intro h i hi
    obtain ⟨j, hj, hspan⟩ := h ⟨i, hi, rfl⟩
    exact ⟨j, hj, (heq hi hj).mpr hspan.symm⟩
  · rintro h _ ⟨i, hi, rfl⟩
    obtain ⟨j, hj, hcompare⟩ := h i hi
    exact ⟨j, hj, ((heq hi hj).mp hcompare).symm⟩

/-- Two ranges have the same spans if they have the same intervals up to comparison. -/
lemma spans_eq_iff (his : is.Regular) (hjs : js.Regular) :
    is.spans = js.spans ↔ SameIntervals is js := by
  rw [Set.Subset.antisymm_iff, spans_subset_iff his hjs, spans_subset_iff hjs his]
  exact ⟨fun h => ⟨h.1, h.2⟩, fun h => ⟨h.forth, h.back⟩⟩

/-- A canonical range is a canonical form of the list it is made from. -/
theorem canonical_isCanonicalOf (his : is.Regular) : Yields (canonical is) (·.IsCanonicalOf is) := by
  refine (canonical_spec his).imp ?_
  rintro ks ⟨hsub, hasc, hspans⟩
  have hks : ks.Regular := fun k hk => his k (hsub k hk)
  exact ⟨hsub, (spans_eq_iff hks his).mp hspans, hasc.pairwise_compare hks⟩

/-- Canonical ranges are equal if and only if they are made from the same intervals. -/
theorem equal_canonical_iff (his : is.Regular) (hjs : js.Regular) {ks ls : Range}
    (hks : canonical is = .ok ks) (hls : canonical js = .ok ls) :
    Yields (equal ks ls) fun same => same = true ↔ SameIntervals is js := by
  obtain ⟨hsub, hasc, hspans⟩ := (canonical_spec his).of_eq_ok hks
  obtain ⟨hsub', hasc', hspans'⟩ := (canonical_spec hjs).of_eq_ok hls
  have hregular : ks.Regular := fun k hk => his k (hsub k hk)
  have hregular' : ls.Regular := fun l hl => hjs l (hsub' l hl)
  refine (equal_spec_of_ascending hregular hregular' hasc hasc').imp fun same hsame => ?_
  rw [hsame, hspans, hspans', spans_eq_iff his hjs]

/-- The comparisons of bounds and of intervals are total preorders in which what is absent or agrees
compares as equal. The tighter of two bounds is a maximum of the lower and a minimum of the upper
ones, and beyond it are the versions that are beyond both, where an absent bound excludes nothing. So
the canonical range of a list is strictly increasing, and the canonical ranges of two lists are equal
if and only if the lists have the same intervals. -/
theorem orders_agree :
    (TotalPreorder Bound.compareLower { x | Bound.Regular x } (Option.Rel Bound.Agree) ∧
      TotalPreorder Bound.compareUpper { x | Bound.Regular x } (Option.Rel Bound.Agree) ∧
      TotalPreorder Interval.compare { i | i.Regular } Interval.Agree) ∧
    (∀ x y, Bound.Regular x → Bound.Regular y →
      (∃ z, Bound.tighterLower x y = .ok z ∧
        Bound.IsTighter (NotAfter Bound.compareLower) Interval.isAboveLower x y z) ∧
      ∃ z, Bound.tighterUpper x y = .ok z ∧
        Bound.IsTighter (fun w z => NotAfter Bound.compareUpper z w) Interval.isBelowUpper x y z) ∧
    (∀ v, Interval.isAboveLower none v = .ok true ∧ Interval.isBelowUpper none v = .ok true) ∧
    ∀ is js : Range, is.Regular → js.Regular → ∃ ks ls same,
      canonical is = .ok ks ∧ canonical js = .ok ls ∧
      ks.IsCanonicalOf is ∧ ls.IsCanonicalOf js ∧
      equal ks ls = .ok same ∧ (same = true ↔ SameIntervals is js) := by
  refine ⟨⟨Bound.compareLower_totalPreorder, Bound.compareUpper_totalPreorder,
    Interval.compare_totalPreorder⟩, ?_, fun v => ⟨rfl, rfl⟩, ?_⟩
  · intro x y hx hy
    exact ⟨Bound.tighterLower_isTighter hx hy, Bound.tighterUpper_isTighter hx hy⟩
  · intro is js his hjs
    obtain ⟨ks, hks, hcanonical⟩ := canonical_isCanonicalOf his
    obtain ⟨ls, hls, hcanonical'⟩ := canonical_isCanonicalOf hjs
    obtain ⟨same, hsame, hiff⟩ := equal_canonical_iff his hjs hks hls
    exact ⟨ks, ls, same, hks, hls, hcanonical, hcanonical', hsame, hiff⟩

/-- The interval of `sample` with a build in its lower bound, all versions, and then `sample`. -/
def sampleRepeated : Range :=
  ⟨some ⟨{ Semver.sample with build := [['7']] }, true⟩, some ⟨.ofRelease ⟨2, 0, 0⟩, false⟩⟩ ::
    ⟨none, none⟩ :: sample

lemma regular_sampleRepeated : sampleRepeated.Regular := by
  have hbuilt : Semver.Ordinary { Semver.sample with build := [['7']] } :=
    ⟨⟨"1.2.0-beta.3+7".toList, by decide⟩, Semver.ordinary_sample.2⟩
  have hrelease : (Semver.ofRelease ⟨2, 0, 0⟩).Ordinary := Semver.ordinary_ofRelease (by decide)
  have hall : Interval.Regular ⟨none, none⟩ := ⟨Bound.regular_none, Bound.regular_none⟩
  exact List.forall_mem_cons.mpr ⟨⟨Bound.regular_some.mpr hbuilt.regular,
    Bound.regular_some.mpr hrelease.regular⟩, List.forall_mem_cons.mpr ⟨hall, regular_sample⟩⟩

theorem orders_agree_sample :
    let x : Option Bound := some ⟨.sample, true⟩
    let y : Option Bound := some ⟨.sample, false⟩
    (∃ o, Bound.compareLower x y = .ok o ∧ Bound.compareLower y x = .ok o.swap) ∧
      NotAfter Bound.compareLower none y ∧
      (∃ z, Bound.tighterLower x y = .ok z ∧
        Bound.IsTighter (NotAfter Bound.compareLower) Interval.isAboveLower x y z) ∧
      SameIntervals sampleRepeated (⟨none, none⟩ :: sample) := by
  intro x y
  have hx : Bound.Regular x := Bound.regular_some.mpr Semver.ordinary_sample.regular
  have hy : Bound.Regular y := Bound.regular_some.mpr Semver.ordinary_sample.regular
  have hother : Range.Regular (⟨none, none⟩ :: sample) :=
    (List.forall_mem_cons.mp regular_sampleRepeated).2
  have hnone : NotAfter Bound.compareLower none x := .ok (by decide)
  have hxy : NotAfter Bound.compareLower x y := ⟨.lt, by decide +kernel, by decide⟩
  have hcanonical : canonical sampleRepeated = .ok (sampleRepeated.take 2).reverse := by
    decide +kernel
  have hcanonical' : canonical (⟨none, none⟩ :: sample) = .ok (⟨none, none⟩ :: sample) := by
    decide +kernel
  have hequal : equal (sampleRepeated.take 2).reverse (⟨none, none⟩ :: sample) = .ok true := by
    decide +kernel
  obtain ⟨⟨hlower, -, -⟩, htighter, -, hlists⟩ := orders_agree
  obtain ⟨ks, ls, same, hks, hls, -, -, hsame, hiff⟩ :=
    hlists sampleRepeated (⟨none, none⟩ :: sample) regular_sampleRepeated hother
  refine ⟨hlower.swap x hx y hy, hlower.trans none Bound.regular_none x hx y hy hnone hxy,
    (htighter x y hx hy).1, hiff.mp ?_⟩
  cases hcanonical.symm.trans hks
  cases hcanonical'.symm.trans hls
  exact (Except.ok.inj (hequal.symm.trans hsame)).symm

end Range

end VersionConstraints
