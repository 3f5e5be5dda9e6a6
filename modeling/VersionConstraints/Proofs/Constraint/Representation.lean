import VersionConstraints.Proofs.Constraint.Limits
import VersionConstraints.Proofs.Interval.Admission

/-!
# How ranges are represented

The range of a reachable constraint has intervals, in ascending order and none of them twice. Each
interval stays as it is when it is normalized once more, and its bounds alone tell of which releases
it contains prereleases. Declarations and pins make such ranges, and intersections keep to them.
-/

namespace VersionConstraints

namespace Constraint

variable {c d e : Constraint} {q : Requirement}

/-! ### Producers -/

lemma Regular.intervals (h : c.Regular) : c.intervals.Regular := by
  cases c with
  | range is t => exact h
  | universal | empty | revision a | branch a | literal a => exact nofun

/-- A strict declaration sorts its intervals. -/
lemma ascending_of_ofDeclaration {kind s : String}
    (h : Requirement.ofDeclaration kind s .strict = .ok q) (hq : q.constraint.Regular) :
    q.constraint.intervals.Ascending := by
  have hregular := hq.intervals
  simp only [Requirement.ofDeclaration] at h
  split at h
  · cases h
  · cases h
    exact List.Pairwise.nil
  · cases h
    exact List.Pairwise.nil
  · obtain ⟨-, rfl⟩ | ⟨is, his, rfl⟩ := Requirement.ofVersionText_cases (Error.of_ofFault h)
    · exact List.Pairwise.nil
    · obtain ⟨t, as, -, has, hfold⟩ := Range.exists_alternatives_of_ofText his
      rw [intervals_ofRange] at hregular ⊢
      exact Range.ascending_of_ofAlternatives (Expression.comparable_of_alternatives has) hfold
        hregular

lemma ascending_pin (v : Version) : (pin v).intervals.Ascending := by
  cases v with
  | revision id => exact List.Pairwise.nil
  | paired n id => exact List.Pairwise.nil
  | named n =>
    cases n with
    | branch name => exact List.Pairwise.nil
    | plain text => exact List.Pairwise.nil
    | semver w => exact List.pairwise_singleton _ _

/-- An intersection sorts its intervals. -/
lemma ascending_of_intersect (hc : c.Regular) (hd : d.Regular) (hca : c.intervals.Ascending)
    (hda : d.intervals.Ascending) (h : c.intersect d = .ok e) : e.intervals.Ascending := by
  rcases intervals_of_intersect h with heq | heq | heq | hks
  · exact heq ▸ hca
  · exact heq ▸ hda
  · exact heq ▸ List.Pairwise.nil
  · exact (Range.intersect_spec hc.intervals hd.intervals hks).ascending

/-! ### Reachable ranges -/

/-- The intervals of a reachable constraint ascend. -/
theorem Reachable.ascending (h : c.Reachable) : c.intervals.Ascending := by
  induction h with
  | universal | empty | revision id | branch name | literal text => exact List.Pairwise.nil
  | declared h hq => exact ascending_of_ofDeclaration h hq
  | pinned hv => exact ascending_pin _
  | intersect hc hd h ihc ihd =>
    exact ascending_of_intersect hc.regular_and_normal.1 hd.regular_and_normal.1 ihc ihd h

/-- The range of a reachable constraint has intervals. They are strictly increasing, so no two of
them compare as equal. Each is its own intersection with itself, and contains a prerelease of each
release that one of its bounds is a prerelease of. -/
theorem reachable_representation {is : Range} {t : String} (h : Reachable (.range is t)) :
    is ≠ [] ∧ is.Pairwise (fun i j => i.compare j = .ok .lt) ∧
      (∀ i ∈ is, ∀ j ∈ is, i.compare j = .ok .eq → i = j) ∧
      (∀ i ∈ is, i.intersect i = .ok (some i) ∧ i.compare i = .ok .eq) ∧
      ∀ i ∈ is, ∀ r, i.HasPrereleaseBound r → ∃ v : Semver, v.Ordinary ∧
        v.isPrerelease = true ∧ v.release = r ∧ i.contains v = .ok true := by
  obtain ⟨hregular, hne, hnormal⟩ := h.regular_and_normal
  have hasc : is.Ascending := h.ascending
  refine ⟨hne, hasc.pairwise_compare hregular, ?_, ?_, ?_⟩
  · intro i hi j hj
    exact hasc.eq_of_compare_eq hregular hi hj
  · intro i hi
    obtain ⟨hcomparable, hi'⟩ := hnormal i hi
    exact ⟨hi'.intersect_self hcomparable, hcomparable.compare_self⟩
  · intro i hi r hr
    exact (hnormal i hi).2.exists_contains_prerelease (hregular i hi) hr

theorem reachable_representation_sample : sampleGapped.Reachable ∧
    sampleGapped.intervals.length = 2 ∧
    sampleGapped.intervals.Pairwise (fun i j => i.compare j = .ok .lt) ∧
    ∃ i ∈ sampleGapped.intervals, i.intersect i = .ok (some i) ∧ ∃ v : Semver, v.Ordinary ∧
      v.isPrerelease = true ∧ v.release = ⟨1, 2, 0⟩ ∧ i.contains v = .ok true := by
  obtain ⟨-, hpairwise, -, hself, hprerelease⟩ := reachable_representation reachable_sampleGapped
  have hmem : _ ∈ sampleGapped.intervals := List.mem_cons_of_mem _ List.mem_cons_self
  refine ⟨reachable_sampleGapped, rfl, hpairwise, _, hmem, (hself _ hmem).1, ?_⟩
  exact hprerelease _ hmem ⟨1, 2, 0⟩ ⟨⟨.sample, true⟩, .inl rfl, rfl, rfl⟩

end Constraint

end VersionConstraints
