import VersionConstraints.Proofs.Constraint.Intersection

/-!
# Intersections are conjunctions

A list of constraints is folded from the left until nothing is left. The fold contains what all
constraints of the list contain. A pair has two facets, and with them it can satisfy two constraints
of different forms, which make nothing together; so for pairs only one direction holds, unless the
constraints are of one form.
-/

namespace VersionConstraints

namespace Constraint

variable {c d e : Constraint} {ds : List Constraint} {v : Version}

lemma isEmpty_eq_true : c.isEmpty = true ↔ c = .empty := by
  cases c <;> simp [isEmpty]

/-- What a fold comes to contains what it began with and all constraints of its list contain. -/
lemma intersectFrom_spec (hc : c.Regular) (hds : ∀ d ∈ ds, d.Regular)
    (h : c.intersectFrom ds = .ok e) :
    e.Regular ∧ ∀ v : Version, v.Comparable →
      (e.contains v = .ok true → c.contains v = .ok true ∧ ∀ d ∈ ds, d.contains v = .ok true) ∧
      (v.unpaired = v → c.contains v = .ok true → (∀ d ∈ ds, d.contains v = .ok true) →
        e.contains v = .ok true) := by
  induction ds generalizing c with
  | nil =>
    cases h
    exact ⟨hc, fun v _ => ⟨fun hv => ⟨hv, nofun⟩, fun _ hv _ => hv⟩⟩
  | cons d ds ih =>
    obtain ⟨hd, hds⟩ := List.forall_mem_cons.mp hds
    obtain ⟨x, hx, h⟩ := bind_eq_ok.mp h
    have hmakes := makes_of_intersect hc hd hx
    have hxr := hmakes.regular hc hd
    split at h
    · next hempty =>
      -- The fold stops here, and no version satisfies both constraints.
      cases h
      obtain rfl := isEmpty_eq_true.mp hempty
      refine ⟨hxr, fun v hv => ⟨nofun, fun hunpaired hcv hdv => ?_⟩⟩
      exact hmakes.complete hc hd hv (.inl hunpaired) hcv (hdv d List.mem_cons_self)
    · obtain ⟨her, hspec⟩ := ih hxr hds h
      refine ⟨her, ?_⟩
      intro v hv
      obtain ⟨hsound, hcomplete⟩ := hspec v hv
      constructor
      · intro hev
        obtain ⟨hxv, hdsv⟩ := hsound hev
        obtain ⟨hcv, hdv⟩ := hmakes.sound hc hd hv hxv
        exact ⟨hcv, List.forall_mem_cons.mpr ⟨hdv, hdsv⟩⟩
      · intro hunpaired hcv hdsv
        obtain ⟨hdv, hdsv⟩ := List.forall_mem_cons.mp hdsv
        exact hcomplete hunpaired (hmakes.complete hc hd hv (.inl hunpaired) hcv hdv) hdsv

/-- An unpaired version satisfies what a list of constraints makes together if and only if it
satisfies all of them. A pair that satisfies it satisfies all of them, and for two constraints of
one form the converse holds for pairs too. -/
theorem intersect_conjunction :
    (∀ (cs : List Constraint) (c : Constraint), (∀ d ∈ cs, d.Regular) → intersectAll cs = .ok c →
      ∀ v : Version, v.Comparable →
        (∃ p, c.contains v = .ok p) ∧ (∀ d ∈ cs, ∃ q, d.contains v = .ok q) ∧
        (v.unpaired = v → (c.contains v = .ok true ↔ ∀ d ∈ cs, d.contains v = .ok true)) ∧
        (c.contains v = .ok true → ∀ d ∈ cs, d.contains v = .ok true)) ∧
    ∀ a b c : Constraint, a.Regular → b.Regular → a.form = b.form → a.intersect b = .ok c →
      ∀ v : Version, v.Comparable →
        (c.contains v = .ok true ↔ a.contains v = .ok true ∧ b.contains v = .ok true) := by
  constructor
  · intro cs c hcs h v hv
    obtain ⟨hc, hspec⟩ := intersectFrom_spec (c := .universal) trivial hcs h
    obtain ⟨hsound, hcomplete⟩ := hspec v hv
    refine ⟨contains_total hc hv, fun d hd => contains_total (hcs d hd) hv, fun hunpaired => ?_,
      fun hcv => (hsound hcv).2⟩
    exact ⟨fun hcv => (hsound hcv).2, hcomplete hunpaired rfl⟩
  · intro a b c ha hb hform h v hv
    have hmakes := makes_of_intersect ha hb h
    constructor
    · exact hmakes.sound ha hb hv
    · rintro ⟨hav, hbv⟩
      exact hmakes.complete ha hb hv (.inr hform) hav hbv

def samplePair : Version := .paired (.semver .sample) "0f3a"

theorem intersect_conjunction_pair :
    (∃ c, intersectAll [sample, .universal, sampleOther] = .ok c ∧
      c.contains samplePair = .ok true ∧
      ∀ d ∈ [sample, .universal, sampleOther], d.contains samplePair = .ok true) ∧
    ∃ c, sample.intersect sampleOther = .ok c ∧ (c.contains samplePair = .ok true ↔
      sample.contains samplePair = .ok true ∧ sampleOther.contains samplePair = .ok true) := by
  have hregular : ∀ d ∈ [sample, .universal, sampleOther], d.Regular := by
    refine List.forall_mem_cons.mpr ⟨Range.regular_sample, ?_⟩
    exact List.forall_mem_cons.mpr
      ⟨trivial, List.forall_mem_singleton.mpr Range.regular_sampleOther⟩
  have hall : intersectAll [sample, .universal, sampleOther] = .ok sample := by decide +kernel
  have hcomparable : samplePair.Comparable := by
    rintro _ ⟨⟩
    exact Semver.ordinary_sample.regular.toComparable
  have hcontains : sample.contains samplePair = .ok true := by decide +kernel
  refine ⟨⟨_, hall, hcontains, ?_⟩, _, intersect_sample, ?_⟩
  · exact (intersect_conjunction.1 _ _ hregular hall _ hcomparable).2.2.2 hcontains
  · exact intersect_conjunction.2 sample sampleOther sample Range.regular_sample
      Range.regular_sampleOther rfl intersect_sample _ hcomparable

end Constraint

end VersionConstraints
