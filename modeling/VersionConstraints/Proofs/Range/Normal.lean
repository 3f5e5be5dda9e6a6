import VersionConstraints.Proofs.Expression.Restrictions
import VersionConstraints.Proofs.Interval.Read
import VersionConstraints.Proofs.Range.Folding
import VersionConstraints.Proofs.Range.Intersection
import VersionConstraints.Proofs.Sorting.Permutation

/-!
# Normal ranges

The intervals of a range that was read strictly are normal, and so are those of an intersection. A
range that is made canonical is one of its own intervals, and an interval is left out only if it
compares as equal to one that is kept; so where the bounds that are kept are regular, all were.
-/

namespace VersionConstraints

/-! ### Regular versions compare as equal to regular ones only -/

namespace Semver

variable {v w : Semver}

lemma Regular.order_compares (hv : v.Regular) (hw : w.WellFormed) :
    (v.order w).Compares v.precedence w.precedence := by
  refine compares_toLex (compares_compare _ _) (prereleaseOrder_compares ?_)
  intro a ha b hb heq
  exact (hw.apart hv b hb a ha heq.symm).symm

/-- A version of the same order as a regular one is regular. -/
lemma Regular.of_order_eq (hv : v.Regular) (hw : w.Comparable) (h : v.order w = .eq) :
    w.Regular := by
  have hplace := (hv.order_compares hw.wellFormed).eq_eq.mp h
  obtain ⟨-, hprerelease⟩ := hw.wellFormed.eq_of_precedence_eq hv hplace.symm
  exact ⟨hw, hprerelease ▸ hv.words⟩

end Semver

namespace Bound

variable {x y : Option Bound}

lemma Regular.of_compareLower_eq (hx : Regular x) (hy : Read y)
    (h : compareLower x y = .ok .eq) : Regular y := by
  cases y with
  | none => exact regular_none
  | some b =>
    cases x with
    | none => cases h
    | some a =>
      have ha : a.version.Regular := regular_some.mp hx
      obtain ⟨_, hcompare, -⟩ := bind_eq_ok.mp h
      have hb := Semver.comparable_of_compare (read_some.mp hy) hcompare
      rw [compareLower, ha.compare_eq hb, ok_bind, pure_eq_ok] at h
      obtain ⟨horder, -⟩ := Ordering.then_eq_eq.mp (Except.ok.inj h)
      exact regular_some.mpr (ha.of_order_eq hb horder)

lemma Regular.of_compareUpper_eq (hx : Regular x) (hy : Read y)
    (h : compareUpper x y = .ok .eq) : Regular y := by
  cases y with
  | none => exact regular_none
  | some b =>
    cases x with
    | none => cases h
    | some a =>
      have ha : a.version.Regular := regular_some.mp hx
      obtain ⟨_, hcompare, -⟩ := bind_eq_ok.mp h
      have hb := Semver.comparable_of_compare (read_some.mp hy) hcompare
      rw [compareUpper, ha.compare_eq hb, ok_bind, pure_eq_ok] at h
      obtain ⟨horder, -⟩ := Ordering.then_eq_eq.mp (Except.ok.inj h)
      exact regular_some.mpr (ha.of_order_eq hb horder)

end Bound

lemma Interval.Regular.of_compare_eq {i j : Interval} (hi : i.Regular) (hj : j.Read)
    (h : i.compare j = .ok .eq) : j.Regular := by
  obtain ⟨o, ho, h⟩ := bind_eq_ok.mp h
  cases o with
  | eq => exact ⟨hi.lower.of_compareLower_eq hj.lower ho, hi.upper.of_compareUpper_eq hj.upper h⟩
  | lt | gt => cases h

/-! ### Canonical ranges -/

namespace Range

variable {is js ks : Range} {i last : Interval} {as : List Alternative} {g : Grammar} {cs : Text}

/-- Dropping repeated intervals keeps one of each kind and adds none. -/
lemma dropRepeated_covers (h : dropRepeated last is = .ok js) :
    (∀ j ∈ js, j ∈ is) ∧ ∀ i ∈ is, ∃ j ∈ last :: js, j = i ∨ j.compare i = .ok .eq := by
  induction is generalizing last js with
  | nil =>
    cases h
    exact ⟨nofun, nofun⟩
  | cons i is ih =>
    obtain ⟨o, ho, h⟩ := bind_eq_ok.mp h
    have keep {ks : Range} (hks : dropRepeated i is = .ok ks) :
        (∀ j ∈ i :: ks, j ∈ i :: is) ∧
          ∀ k ∈ i :: is, ∃ j ∈ last :: i :: ks, j = k ∨ j.compare k = .ok .eq := by
      obtain ⟨hsub, hcovers⟩ := ih hks
      refine ⟨List.cons_subset_cons i hsub, List.forall_mem_cons.mpr ⟨?_, fun k hk => ?_⟩⟩
      · exact ⟨i, by simp, .inl rfl⟩
      · obtain ⟨j, hj, heq⟩ := hcovers k hk
        exact ⟨j, List.mem_cons_of_mem last hj, heq⟩
    cases o with
    | eq =>
      obtain ⟨hsub, hcovers⟩ := ih h
      exact ⟨fun j hj => List.mem_cons_of_mem i (hsub j hj),
        List.forall_mem_cons.mpr ⟨⟨last, List.mem_cons_self, .inr ho⟩, hcovers⟩⟩
    | lt | gt =>
      obtain ⟨ks, hks, h⟩ := bind_eq_ok.mp h
      cases h
      exact keep hks

/-- A canonical range has intervals of the range it was made from, and leaves out those only that
compare as equal to one of its own. -/
theorem canonical_covers (h : canonical is = .ok js) :
    (∀ j ∈ js, j ∈ is) ∧ ∀ i ∈ is, ∃ j ∈ js, j = i ∨ j.compare i = .ok .eq := by
  obtain ⟨sorted, hsorted, h⟩ := bind_eq_ok.mp h
  have hmem : ∀ i, i ∈ sorted ↔ i ∈ is := fun i => (Sorting.perm_of_sort hsorted).mem_iff
  cases sorted with
  | nil =>
    cases h
    exact ⟨nofun, fun i hi => nomatch (hmem i).mpr hi⟩
  | cons k ks =>
    obtain ⟨kept, hkept, h⟩ := bind_eq_ok.mp h
    cases h
    obtain ⟨hsub, hcovers⟩ := dropRepeated_covers hkept
    refine ⟨fun j hj => (hmem j).mp (List.cons_subset_cons k hsub hj), fun i hi => ?_⟩
    rcases List.mem_cons.mp ((hmem i).mpr hi) with rfl | hi
    · exact ⟨i, List.mem_cons_self, .inl rfl⟩
    · exact hcovers i hi

/-- If a canonical range has regular bounds, so have the intervals that it was made from. -/
lemma regular_of_canonical (his : ∀ i ∈ is, i.Read) (h : canonical is = .ok js)
    (hjs : js.Regular) : is.Regular := by
  intro i hi
  obtain ⟨j, hj, rfl | heq⟩ := (canonical_covers h).2 i hi
  · exact hjs j hj
  · exact (hjs j hj).of_compare_eq (his i hi) heq

/-- The intervals of an intersection are intersections of intervals. -/
lemma exists_of_mem_intersect {k : Interval} (h : intersect is js = .ok ks) (hk : k ∈ ks) :
    ∃ i ∈ is, ∃ j ∈ js, i.intersect j = .ok (some k) := by
  obtain ⟨all, hall, h⟩ := bind_eq_ok.mp h
  exact ((intersectAll_spec hall).2 k).mp ((canonical_covers h).1 k hk)

/-! ### Normal ranges -/

def Normal (is : Range) : Prop :=
  ∀ i ∈ is, i.Comparable ∧ i.Normal

/-- Folding alternatives leaves normalized intervals. -/
lemma normal_of_intervals (has : ∀ a ∈ as, ∀ c ∈ a, c.Comparable) (h : intervals as = .ok is) :
    is.Normal := by
  intro i hi
  obtain ⟨a, ha, hai⟩ := ((intervals_spec h).mem_iff i).mp hi
  exact Interval.normal_of_ofAlternative (has a ha) hai

/-- The range of alternatives is normal. -/
theorem normal_of_ofAlternatives (has : ∀ a ∈ as, ∀ c ∈ a, c.Comparable)
    (h : ofAlternatives as = .ok is) : is.Normal := by
  obtain ⟨all, hall, h⟩ := bind_eq_ok.mp h
  exact fun i hi => normal_of_intervals has hall i ((canonical_covers h).1 i hi)

/-- The intersection of two ranges is normal. -/
theorem normal_of_intersect (his : ∀ i ∈ is, i.Comparable) (hjs : ∀ j ∈ js, j.Comparable)
    (h : intersect is js = .ok ks) : ks.Normal := by
  intro k hk
  obtain ⟨i, hi, j, hj, hij⟩ := exists_of_mem_intersect h hk
  exact Interval.normal_of_intersect (his i hi) (hjs j hj) hij

lemma Normal.inhabited (h : is.Normal) (his : is.Regular) : ∀ s ∈ is.spans, s.Inhabited := by
  rintro _ ⟨i, hi, rfl⟩
  obtain ⟨w, -, hw⟩ := (h i hi).2.exists_holds (his i hi)
  exact ⟨w.precedence, hw⟩

/-- A range of regular alternatives ascends, also where only the bounds that are kept are known to
be regular. -/
lemma ascending_of_ofAlternatives (has : ∀ a ∈ as, ∀ c ∈ a, c.Comparable)
    (h : ofAlternatives as = .ok is) (his : is.Regular) : is.Ascending := by
  obtain ⟨all, hall, h⟩ := bind_eq_ok.mp h
  have hregular := regular_of_canonical
    (fun i hi => (normal_of_intervals has hall i hi).1.read) h his
  exact ((canonical_spec hregular).of_eq_ok h).2.1

/-! ### Ranges of expressions -/

/-- The range of an expression is that of the alternatives of its canonical text. -/
lemma exists_alternatives_of_ofText (h : ofText g cs = .ok (some is)) :
    ∃ t as, (Expression.withoutCommas? cs.trim).bind (Expression.canonicalText? g) = some t ∧
      Expression.alternatives g t = .ok as ∧ ofAlternatives as = .ok is := by
  simp only [ofText] at h
  split at h
  · cases h
  · next t ht =>
    obtain ⟨as, has, h⟩ := bind_eq_ok.mp h
    obtain ⟨js, hjs, h⟩ := bind_eq_ok.mp h
    cases h
    exact ⟨t, as, ht, has, hjs⟩

end Range

lemma Expression.comparable_of_alternatives {cs : Text} {as : List Alternative}
    (h : alternatives .strict cs = .ok as) : ∀ a ∈ as, ∀ c ∈ a, c.Comparable :=
  fun a ha c hc => (readWith_of_alternatives h a ha c hc).comparable

/-- A range that was read strictly is normal. -/
theorem Range.normal_of_ofText {cs : Text} {is : Range} (h : ofText .strict cs = .ok (some is)) :
    is.Normal := by
  obtain ⟨t, as, -, has, his⟩ := exists_alternatives_of_ofText h
  exact normal_of_ofAlternatives (Expression.comparable_of_alternatives has) his

end VersionConstraints
