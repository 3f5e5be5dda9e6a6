import VersionConstraints.Proofs.Constraint.Emptiness

/-!
# Compatibility is satisfiability

Two reachable constraints are compatible if and only if some version that is no pair satisfies both:
what they make together is not empty then, and what is not empty is satisfied by a version. A pair
adds to this only where one of the constraints looks at its revision and the other one at its named
part; such constraints have nothing in common by definition, though pairs satisfy both.
-/

namespace VersionConstraints

namespace Constraint

variable {c d : Constraint} {v w : Version} {n : NamedVersion} {id : String} {ok : Bool}

/-! ### The two parts of a pair -/

/-- Whether constraints of a form look at the named part of a version. -/
def Form.IsNamed : Form → Prop
  | .range | .branch | .literal => True
  | _                           => False

lemma Form.IsNamed.ne_universal {x : Form} (h : x.IsNamed) : x ≠ .universal := by
  rintro rfl
  cases h

lemma Form.IsNamed.ne_revision {x : Form} (h : x.IsNamed) : x ≠ .revision := by
  rintro rfl
  cases h

/-- A named version has a named form. -/
lemma isNamed_form (n : NamedVersion) : (Version.named n).form.IsNamed := by
  cases n <;> trivial

/-- A constraint of a named form looks at the named part of a version only. -/
lemma contains_eq_of_named?_eq (hc : c.form.IsNamed) (h : v.named? = w.named?) :
    c.contains v = c.contains w := by
  cases c with
  | universal | empty | revision a => cases hc
  | range is t =>
    have hsemver : v.semver? = w.semver? := by rw [Version.semver?, Version.semver?, h]
    simp only [contains, hsemver]
  | branch a =>
    have hbranch : v.branch? = w.branch? := by rw [Version.branch?, Version.branch?, h]
    simp only [contains, hbranch]
  | literal a =>
    have hliteral : v.literal? = w.literal? := by rw [Version.literal?, Version.literal?, h]
    simp only [contains, hliteral]

/-- What a pair satisfies, its revision or its named part satisfies. -/
lemma contains_part_of_paired (h : c.contains (.paired n id) = .ok true) :
    c.contains (.revision id) = .ok true ∨ c.contains (.named n) = .ok true := by
  by_cases hnamed : c.form.IsNamed
  · right
    rw [← h]
    exact contains_eq_of_named?_eq hnamed rfl
  · cases c with
    | universal => exact .inl rfl
    | empty => cases h
    | revision a => exact .inl h
    | range is t | branch a | literal a => exact absurd trivial hnamed

/-- What some version satisfies, a version that is no pair satisfies. -/
lemma exists_unpaired_of_contains (hv : v.Ordinary) (h : c.contains v = .ok true) :
    ∃ w : Version, w.unpaired = w ∧ w.Ordinary ∧ c.contains w = .ok true := by
  cases v with
  | revision id => exact ⟨_, rfl, hv, h⟩
  | named n => exact ⟨_, rfl, hv, h⟩
  | paired n id =>
    rcases contains_part_of_paired h with hid | hn
    · exact ⟨.revision id, rfl, Version.ordinary_of_semver?_eq_none rfl, hid⟩
    · exact ⟨.named n, rfl, hv, hn⟩

/-! ### Crossing constraints -/

/-- Whether one of two constraints looks at the revision of a version, and the other one at its
named part. -/
def Crosses (c d : Constraint) : Prop :=
  c.form = .revision ∧ d.form.IsNamed ∨ c.form.IsNamed ∧ d.form = .revision

/-- Constraints that look at different parts of a version have an empty intersection. -/
lemma Crosses.intersect_eq (h : Crosses c d) : c.intersect d = .ok .empty := by
  obtain ⟨hc, hd⟩ | ⟨hc, hd⟩ := h
  · exact intersect_of_form_ne (hc ▸ nofun) hd.ne_universal (hc ▸ hd.ne_revision.symm)
  · exact intersect_of_form_ne hc.ne_universal (hd ▸ nofun) (hd ▸ hc.ne_revision)

/-- Constraints of two forms that a version satisfies look at the two parts of a pair. -/
lemma crosses_of_contains (hcu : c ≠ .universal) (hdu : d ≠ .universal) (hform : c.form ≠ d.form)
    (hc : c.contains v = .ok true) (hd : d.contains v = .ok true) :
    v.unpaired ≠ v ∧ Crosses c d := by
  have form_of {x : Constraint} {u : Version} (hu : u.unpaired = u) (hx : x ≠ .universal)
      (h : x.contains u = .ok true) : x.form = u.form := (form_of_contains hu h).resolve_left hx
  have hpaired : v.unpaired ≠ v := fun hv =>
    hform ((form_of hv hcu hc).trans (form_of hv hdu hd).symm)
  refine ⟨hpaired, ?_⟩
  cases v with
  | revision id => exact absurd rfl hpaired
  | named n => exact absurd rfl hpaired
  | paired n id =>
    rcases contains_part_of_paired hc with hc | hc <;>
      rcases contains_part_of_paired hd with hd | hd <;>
      replace hc := form_of rfl hcu hc <;> replace hd := form_of rfl hdu hd
    · exact absurd (hc.trans hd.symm) hform
    · exact .inl ⟨hc, hd ▸ isNamed_form n⟩
    · exact .inr ⟨hc ▸ isNamed_form n, hd⟩
    · exact absurd (hc.trans hd.symm) hform

/-- Where a constraint looks at the named part, a version that satisfies it has one, and satisfies
it with any revision. -/
lemma exists_paired_of_contains (hform : c.form.IsNamed) (hv : v.Ordinary)
    (h : c.contains v = .ok true) (id : String) :
    ∃ n, (Version.paired n id).Ordinary ∧ c.contains (.paired n id) = .ok true := by
  cases v with
  | revision id =>
    obtain rfl | hrevision := form_of_contains rfl h
    · cases hform
    · exact absurd hrevision hform.ne_revision
  | named n | paired n id =>
    refine ⟨n, hv, ?_⟩
    rw [← h]
    exact contains_eq_of_named?_eq hform rfl

/-- A pair satisfies both of two reachable constraints that look at its two parts. -/
lemma Crosses.exists_contains (h : Crosses c d) (hc : c.Reachable) (hd : d.Reachable) :
    ∃ v : Version, v.Ordinary ∧ c.contains v = .ok true ∧ d.contains v = .ok true := by
  have hpair {x y : Constraint} (hx : x.form = .revision) (hy : y.form.IsNamed)
      (hyr : y.Reachable) :
      ∃ v : Version, v.Ordinary ∧ x.contains v = .ok true ∧ y.contains v = .ok true := by
    obtain ⟨hregular, hnormal⟩ := hyr.regular_and_normal
    have hne : y ≠ .empty := by
      rintro rfl
      cases hy
    obtain ⟨u, hu, hyu⟩ := hnormal.exists_contains hregular hne
    cases x with
    | revision id =>
      obtain ⟨n, hn, hyn⟩ := exists_paired_of_contains hy hu hyu id
      exact ⟨_, hn, by simp [contains, Version.revision?], hyn⟩
    | universal | empty | range is t | branch a | literal a => cases hx
  obtain ⟨hcf, hdf⟩ | ⟨hcf, hdf⟩ := h
  · exact hpair hcf hdf hd
  · obtain ⟨v, hv, hdv, hcv⟩ := hpair hdf hcf hc
    exact ⟨v, hv, hcv, hdv⟩

/-! ### Compatibility -/

/-- Constraints are compatible if their intersection is not empty. -/
lemma compatible_eq_ok (h : c.compatible d = .ok ok) :
    ∃ e, c.intersect d = .ok e ∧ (ok = true ↔ e ≠ .empty) := by
  obtain ⟨e, he, h⟩ := bind_eq_ok.mp h
  obtain rfl : (!e.isEmpty) = ok := Except.ok.inj h
  refine ⟨e, he, ?_⟩
  rw [← isEmpty_eq_true.ne]
  cases e.isEmpty <;> simp

section Reachable

variable (hc : c.Reachable) (hd : d.Reachable) (h : c.compatible d = .ok ok)

include hc hd h

/-- Some version that is no pair satisfies two compatible constraints. -/
lemma exists_contains_of_compatible (hok : ok = true) :
    ∃ v : Version, v.unpaired = v ∧ v.Ordinary ∧ c.contains v = .ok true ∧
      d.contains v = .ok true := by
  obtain ⟨e, he, hiff⟩ := compatible_eq_ok h
  obtain ⟨hcr, -⟩ := hc.regular_and_normal
  obtain ⟨hdr, -⟩ := hd.regular_and_normal
  obtain ⟨her, hen⟩ := (Reachable.intersect hc hd he).regular_and_normal
  obtain ⟨v, hv, hev⟩ := hen.exists_contains her (hiff.mp hok)
  obtain ⟨w, hw, hwo, hew⟩ := exists_unpaired_of_contains hv hev
  exact ⟨w, hw, hwo, (makes_of_intersect hcr hdr he).sound hcr hdr hwo.comparable hew⟩

/-- If a version satisfies two constraints, these are compatible, or it is a pair and they look at
its two parts. -/
lemma compatible_of_contains (hv : v.Comparable) (hcv : c.contains v = .ok true)
    (hdv : d.contains v = .ok true) : ok = true ∨ v.unpaired ≠ v ∧ Crosses c d := by
  obtain ⟨e, he, hiff⟩ := compatible_eq_ok h
  obtain ⟨hcr, -⟩ := hc.regular_and_normal
  obtain ⟨hdr, -⟩ := hd.regular_and_normal
  rcases (makes_of_intersect hcr hdr he).contains_eq hcr hdr hv with
    ⟨p, q, hp, hq, hpq⟩ | ⟨hcu, hdu, hform, -⟩
  · left
    rw [hiff]
    rintro rfl
    obtain rfl := Except.ok.inj (hcv.symm.trans hp)
    obtain rfl := Except.ok.inj (hdv.symm.trans hq)
    cases hpq
  · exact .inr (crosses_of_contains hcu hdu hform hcv hdv)

end Reachable

/-- Two reachable constraints are compatible if and only if a version that is no pair satisfies
both. Unless one of them looks at the revision and the other one at the named part of a version,
this holds with pairs too; otherwise they are not compatible, and some pair satisfies both. -/
theorem compatible_exact (a b : Constraint) (ok : Bool) (ha : a.Reachable) (hb : b.Reachable)
    (h : a.compatible b = .ok ok) :
    (ok = true ↔ ∃ v : Version, v.unpaired = v ∧ v.Ordinary ∧ a.contains v = .ok true ∧
      b.contains v = .ok true) ∧
    (¬ Crosses a b → (ok = true ↔ ∃ v : Version, v.Ordinary ∧ a.contains v = .ok true ∧
      b.contains v = .ok true)) ∧
    (Crosses a b → ok = false ∧ ∃ v : Version, v.Ordinary ∧ a.contains v = .ok true ∧
      b.contains v = .ok true) := by
  have hexists := exists_contains_of_compatible ha hb h
  have hcompatible {v : Version} (hv : v.Ordinary) (hav : a.contains v = .ok true)
      (hbv : b.contains v = .ok true) : ok = true ∨ v.unpaired ≠ v ∧ Crosses a b :=
    compatible_of_contains ha hb h hv.comparable hav hbv
  refine ⟨⟨hexists, ?_⟩, fun hcross => ⟨fun hok => ?_, ?_⟩, fun hcross => ⟨?_, ?_⟩⟩
  · rintro ⟨v, hunpaired, hv, hav, hbv⟩
    exact (hcompatible hv hav hbv).resolve_right fun hpair => hpair.1 hunpaired
  · obtain ⟨v, -, hv⟩ := hexists hok
    exact ⟨v, hv⟩
  · rintro ⟨v, hv, hav, hbv⟩
    exact (hcompatible hv hav hbv).resolve_right fun hpair => hcross hpair.2
  · obtain ⟨e, he, hiff⟩ := compatible_eq_ok h
    obtain rfl := Except.ok.inj (hcross.intersect_eq.symm.trans he)
    simpa using hiff
  · exact hcross.exists_contains ha hb

def samplePairedBranch : Version := .paired (.branch "main") "0f3a"

theorem compatible_exact_sample :
    (sample.compatible sampleGapped = .ok true ∧ ∃ v : Version, v.unpaired = v ∧ v.Ordinary ∧
      sample.contains v = .ok true ∧ sampleGapped.contains v = .ok true) ∧
    (revision "0f3a").compatible (branch "main") = .ok false ∧ ∃ v : Version, v.Ordinary ∧
      (revision "0f3a").contains v = .ok true ∧ (branch "main").contains v = .ok true := by
  have hranges : sample.compatible sampleGapped = .ok true := by decide +kernel
  have hcrossing : (revision "0f3a").compatible (branch "main") = .ok false := by decide
  refine ⟨⟨hranges, ?_⟩, hcrossing, ?_⟩
  · exact (compatible_exact _ _ true reachable_sample reachable_sampleGapped hranges).1.mp rfl
  · exact ((compatible_exact _ _ false (.revision _) (.branch _) hcrossing).2.2
      (.inl ⟨rfl, trivial⟩)).2

/-- A pair satisfies two constraints that are not compatible. -/
theorem compatible_false_of_pair :
    Reachable (revision "0f3a") ∧ Reachable (branch "main") ∧
      (revision "0f3a").compatible (branch "main") = .ok false ∧
      samplePairedBranch.Ordinary ∧ (revision "0f3a").contains samplePairedBranch = .ok true ∧
      (branch "main").contains samplePairedBranch = .ok true :=
  ⟨.revision _, .branch _, by decide, Version.ordinary_of_semver?_eq_none rfl, by decide,
    by decide⟩

end Constraint

end VersionConstraints
