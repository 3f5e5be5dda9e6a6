import VersionConstraints.Proofs.Interval.Normalize
import VersionConstraints.Proofs.Range.Canonical

/-!
# Intersections of ranges

The spans of an intersection are the meets of the spans of both ranges, as far as they hold
anything. So the intersection contains the versions that both ranges contain and no others, and each
of its intervals contains some version.
-/

namespace VersionConstraints

namespace Range

variable {is js ks : Range} {i : Interval} {v : Semver}

/-! ### Pairs of intervals -/

lemma intersectWith_spec (h : intersectWith i js = .ok ks) : Collects i.intersect js ks := by
  induction js generalizing ks with
  | nil =>
    cases h
    exact .nil
  | cons j js ih =>
    obtain ⟨o, ho, h⟩ := bind_eq_ok.mp h
    obtain ⟨rest, hrest, h⟩ := bind_eq_ok.mp h
    cases h
    exact .cons ho (ih hrest)

lemma intersectAll_spec (h : intersectAll is js = .ok ks) :
    (∀ i ∈ is, ∀ j ∈ js, ∃ o, i.intersect j = .ok o) ∧
      ∀ k, k ∈ ks ↔ ∃ i ∈ is, ∃ j ∈ js, i.intersect j = .ok (some k) := by
  induction is generalizing ks with
  | nil =>
    cases h
    exact ⟨nofun, fun k => by simp⟩
  | cons i is ih =>
    obtain ⟨first, hfirst, h⟩ := bind_eq_ok.mp h
    obtain ⟨rest, hrest, h⟩ := bind_eq_ok.mp h
    cases h
    obtain ⟨hok, hmem⟩ := intersectWith_spec hfirst
    obtain ⟨hok', hmem'⟩ := ih hrest
    refine ⟨List.forall_mem_cons.mpr ⟨hok, hok'⟩, ?_⟩
    intro k
    rw [List.mem_append, hmem, hmem', List.exists_mem_cons_iff]

/-- The intersections of all pairs have the meets of the spans. -/
lemma spans_intersectAll (his : is.Regular) (hjs : js.Regular) (h : intersectAll is js = .ok ks) :
    ks.spans = Span.meets is.spans js.spans := by
  obtain ⟨hok, hmem⟩ := intersectAll_spec h
  ext s
  constructor
  · rintro ⟨k, hk, rfl⟩
    obtain ⟨i, hi, j, hj, hij⟩ := (hmem k).mp hk
    obtain ⟨-, hspan, w, -, hw⟩ := Interval.intersect_spec (his i hi) (hjs j hj) hij
    rw [hspan]
    exact ⟨⟨_, hw⟩, _, ⟨i, hi, rfl⟩, _, ⟨j, hj, rfl⟩, rfl⟩
  · rintro ⟨⟨p, hp⟩, _, ⟨i, hi, rfl⟩, _, ⟨j, hj, rfl⟩, rfl⟩
    obtain ⟨o, ho⟩ := hok i hi j hj
    have hspec := Interval.intersect_spec (his i hi) (hjs j hj) ho
    cases o with
    | none => exact absurd hp (hspec p)
    | some k => exact ⟨k, (hmem k).mpr ⟨i, hi, j, hj, ho⟩, hspec.2.1⟩

/-! ### Intersections -/

/-- An intersection has the meets of the spans of both ranges, and a version in each of its
intervals. -/
structure IsIntersection (is js ks : Range) : Prop where
  regular : ks.Regular
  ascending : ks.Ascending
  spans_eq : ks.spans = Span.meets is.spans js.spans
  populated : ∀ k ∈ ks, ∃ w : Semver, w.Ordinary ∧ k.span.Holds w.precedence

theorem intersect_spec (his : is.Regular) (hjs : js.Regular) (h : intersect is js = .ok ks) :
    IsIntersection is js ks := by
  obtain ⟨all, hall, h⟩ := bind_eq_ok.mp h
  obtain ⟨-, hmem⟩ := intersectAll_spec hall
  have hspec : ∀ k ∈ all, k.Regular ∧ ∃ w : Semver, w.Ordinary ∧ k.span.Holds w.precedence := by
    intro k hk
    obtain ⟨i, hi, j, hj, hij⟩ := (hmem k).mp hk
    obtain ⟨hregular, hspan, w, hw, hholds⟩ := Interval.intersect_spec (his i hi) (hjs j hj) hij
    obtain ⟨w', hw', hplace⟩ := hw.exists_ordinary_at
    exact ⟨hregular, w', hw', by rw [hspan, hplace]; exact hholds⟩
  obtain ⟨hsub, hasc, hspans⟩ := (canonical_spec fun k hk => (hspec k hk).1).of_eq_ok h
  exact ⟨fun k hk => (hspec k (hsub k hk)).1, hasc, hspans.trans (spans_intersectAll his hjs hall),
    fun k hk => (hspec k (hsub k hk)).2⟩

namespace IsIntersection

/-- An intersection holds what both ranges hold. -/
lemma exists_holds_iff (h : IsIntersection is js ks) {p : Precedence} :
    (∃ s ∈ ks.spans, s.Holds p) ↔ (∃ s ∈ is.spans, s.Holds p) ∧ ∃ s ∈ js.spans, s.Holds p := by
  rw [h.spans_eq]
  exact Span.exists_mem_meets_holds

/-- Membership in an intersection is membership in both ranges. -/
lemma contains_eq (h : IsIntersection is js ks) (his : is.Regular) (hjs : js.Regular)
    (hv : v.Comparable) : ∃ p q,
      contains v is = .ok p ∧ contains v js = .ok q ∧ contains v ks = .ok (p && q) :=
  (contains_spec his hv).exists_and (contains_spec hjs hv) (contains_spec h.regular hv)
    h.exists_holds_iff

end IsIntersection

/-- The intersection of two ranges with regular bounds contains exactly what both of them contain.
Each of its intervals contains an ordinary version, so there is none if and only if no ordinary
version is in both ranges. -/
theorem intersect_exact (his : is.Regular) (hjs : js.Regular) (h : intersect is js = .ok ks) :
    (∀ v : Semver, v.Comparable → ∃ p q,
      contains v is = .ok p ∧ contains v js = .ok q ∧ contains v ks = .ok (p && q)) ∧
    (∀ k ∈ ks, ∃ v : Semver, v.Ordinary ∧ k.contains v = .ok true) ∧
    (ks = [] ↔
      ¬ ∃ v : Semver, v.Ordinary ∧ contains v is = .ok true ∧ contains v js = .ok true) := by
  have hspec := intersect_spec his hjs h
  have hexact (v : Semver) (hv : v.Comparable) := hspec.contains_eq his hjs hv
  have hpopulated : ∀ k ∈ ks, ∃ v : Semver, v.Ordinary ∧ k.contains v = .ok true := by
    intro k hk
    obtain ⟨v, hv, hholds⟩ := hspec.populated k hk
    obtain ⟨b, hb, hbspec⟩ := Interval.contains_spec (hspec.regular k hk) hv.regular.toComparable
    exact ⟨v, hv, hb.trans (congrArg Except.ok (hbspec.mpr hholds))⟩
  refine ⟨hexact, hpopulated, ?_⟩
  constructor
  · rintro rfl ⟨v, hv, hvi, hvj⟩
    obtain ⟨p, q, hp, hq, hpq⟩ := hexact v hv.regular.toComparable
    rw [hvi] at hp
    rw [hvj] at hq
    cases hp
    cases hq
    cases hpq
  · intro hnone
    cases ks with
    | nil => rfl
    | cons k ks =>
      obtain ⟨v, hv, hk⟩ := hpopulated k List.mem_cons_self
      obtain ⟨p, q, hp, hq, hpq⟩ := hexact v hv.regular.toComparable
      have htrue : contains v (k :: ks) = .ok true := by
        rw [contains, hk, ok_bind, if_pos rfl, pure_eq_ok]
      rw [htrue] at hpq
      obtain ⟨rfl, rfl⟩ := (Bool.and_eq_true p q).mp (Except.ok.inj hpq).symm
      exact absurd ⟨v, hv, hp, hq⟩ hnone

/-- The range `>1.2.0-0 || <=1.0.0`. -/
def sampleOther : Range :=
  [⟨some ⟨.lowestPrerelease ⟨1, 2, 0⟩, false⟩, none⟩, ⟨none, some ⟨.ofRelease ⟨1, 0, 0⟩, true⟩⟩]

lemma regular_sampleOther : sampleOther.Regular := by
  have hlowest := Semver.ordinary_lowestPrerelease (r := ⟨1, 2, 0⟩) (by decide)
  have hrelease := Semver.ordinary_ofRelease (r := ⟨1, 0, 0⟩) (by decide)
  exact List.forall_mem_cons.mpr
    ⟨⟨Bound.regular_some.mpr hlowest.regular, Bound.regular_none⟩, List.forall_mem_singleton.mpr
      ⟨Bound.regular_none, Bound.regular_some.mpr hrelease.regular⟩⟩

lemma intersect_sample : intersect sample sampleOther = .ok sample := by decide +kernel

theorem intersect_exact_sample : ∃ ks, intersect sample sampleOther = .ok ks ∧ ks ≠ [] ∧
    (∃ p q, contains .sample sample = .ok p ∧ contains .sample sampleOther = .ok q ∧
      contains .sample ks = .ok (p && q)) ∧
    ∃ v : Semver, v.Ordinary ∧ contains v sample = .ok true ∧ contains v sampleOther = .ok true := by
  obtain ⟨hexact, -, hempty⟩ := intersect_exact regular_sample regular_sampleOther intersect_sample
  have hne : sample ≠ [] := List.cons_ne_nil _ _
  exact ⟨sample, intersect_sample, hne, hexact .sample Semver.ordinary_sample.regular.toComparable,
    not_not.mp (mt hempty.mpr hne)⟩

end Range

end VersionConstraints
