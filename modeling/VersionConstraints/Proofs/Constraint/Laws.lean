import VersionConstraints.Proofs.Constraint.Intersection

/-!
# The laws of intersection

Intersection is commutative and associative up to equality, and what is made is displayed with the
same text. For ranges this rests on the same laws for the meets of spans: two ranges can contain the
same versions and yet have different bounds.
-/

namespace VersionConstraints

namespace Constraint

variable {a b c d x y z w : Constraint} {is js ks xs zs : Range} {s t u : String}

structure Same (c d : Constraint) : Prop where
  equal : c.equal d = .ok true
  text : c.text = d.text

lemma same_refl (hc : c.Regular) : Same c c := by
  refine ⟨?_, rfl⟩
  cases c with
  | universal | empty => rfl
  | range is t =>
    obtain ⟨ok, hok, hspec⟩ := Range.equal_spec hc hc
    rw [equal, hok, hspec.mpr rfl]
  | revision a | branch a | literal a => simp [equal]

/-! ### Ranges -/

lemma same_ofRange (h : Range.equal is js = .ok true) (t : String) :
    Same (ofRange is t) (ofRange js t) := by
  cases is with
  | nil =>
    cases js with
    | nil => exact ⟨rfl, rfl⟩
    | cons j js => simp [Range.equal] at h
  | cons i is =>
    cases js with
    | nil => simp [Range.equal] at h
    | cons j js => exact ⟨h, rfl⟩

/-- A constraint is made from a range with some spans, in order, and has the text of the range. -/
def IsOf (S : Set Span) (c : Constraint) : Prop :=
  ∃ ks t, ks.Regular ∧ ks.Ascending ∧ ks.spans = S ∧ Range.text ks = .ok t ∧
    c = ofRange ks (String.ofList t)

lemma IsOf.same {S : Set Span} (hc : IsOf S c) (hd : IsOf S d) : Same c d := by
  obtain ⟨ks, t, hks, hasc, hspans, ht, rfl⟩ := hc
  obtain ⟨ls, u, hls, hasc', hspans', hu, rfl⟩ := hd
  have hsame : ks.spans = ls.spans := hspans.trans hspans'.symm
  have htext : t = u := by
    rw [Range.text_eq_of_spans_eq hks hls hasc hasc' hsame, hu] at ht
    exact (Except.ok.inj ht).symm
  rw [htext]
  exact same_ofRange (Range.equal_eq_true hks hls hasc hasc' hsame) _

lemma isOf_of_intersectRanges (his : is.Regular) (hjs : js.Regular)
    (h : intersectRanges is js = .ok c) : IsOf (Span.meets is.spans js.spans) c := by
  obtain ⟨ks, t, hks, ht, rfl⟩ := intersectRanges_spec his hjs h
  exact ⟨ks, t, hks.regular, hks.ascending, hks.spans_eq, ht, rfl⟩

/-- Intersecting with a constraint made from a range gives the meets of their spans. -/
lemma IsOf.intersect_range {S : Set Span} (hc : IsOf S c) (hjs : js.Regular)
    (h : c.intersect (.range js t) = .ok x) : IsOf (Span.meets S js.spans) x := by
  obtain ⟨ks, u, hks, -, rfl, -, rfl⟩ := hc
  cases ks with
  | cons k ks => exact isOf_of_intersectRanges hks hjs h
  | nil =>
    cases h
    refine ⟨[], [], hks, List.Pairwise.nil, ?_, rfl, rfl⟩
    ext s
    simp [Range.spans, Span.meets]

lemma IsOf.range_intersect {S : Set Span} (hd : IsOf S d) (his : is.Regular)
    (h : (range is s).intersect d = .ok x) : IsOf (Span.meets is.spans S) x := by
  obtain ⟨ks, u, hks, -, rfl, -, rfl⟩ := hd
  cases ks with
  | cons k ks => exact isOf_of_intersectRanges his hks h
  | nil =>
    cases h
    refine ⟨[], [], hks, List.Pairwise.nil, ?_, rfl, rfl⟩
    ext s
    simp [Range.spans, Span.meets]

/-! ### The laws -/

/-- Intersection is commutative. -/
lemma same_of_comm (ha : a.Regular) (hb : b.Regular) (hx : a.intersect b = .ok x)
    (hy : b.intersect a = .ok y) : Same x y := by
  have hxr := (makes_of_intersect ha hb hx).regular ha hb
  have same_of_eq (h : a.intersect b = b.intersect a) : Same x y := by
    rw [hx, hy] at h
    exact Except.ok.inj h ▸ same_refl hxr
  by_cases hau : a = .universal
  · exact same_of_eq (by rw [hau, intersect_universal_left, intersect_universal_right])
  by_cases hbu : b = .universal
  · exact same_of_eq (by rw [hbu, intersect_universal_left, intersect_universal_right])
  have hau' := mt form_eq_universal.mp hau
  have hbu' := mt form_eq_universal.mp hbu
  by_cases hform : a.form = b.form
  · by_cases hkeyed : a.form.IsKeyed
    · refine same_of_eq ?_
      rw [intersect_of_keyed hkeyed hform, intersect_of_keyed (hform ▸ hkeyed) hform.symm]
      by_cases hab : a = b
      · rw [hab]
      · rw [if_neg hab, if_neg (Ne.symm hab)]
    · cases a with
      | universal => exact absurd rfl hau
      | empty => exact same_of_eq (by rw [intersect_empty_left, intersect_empty_right])
      | range is s =>
        cases b <;> cases hform
        have hy' := isOf_of_intersectRanges hb ha hy
        rw [Span.meets_comm] at hy'
        exact (isOf_of_intersectRanges ha hb hx).same hy'
      | revision _ | branch _ | literal _ => exact absurd trivial hkeyed
  · refine same_of_eq ?_
    rw [intersect_of_form_ne hau' hbu' hform, intersect_of_form_ne hbu' hau' (Ne.symm hform)]

/-- Constraints that are not of one form have nothing in common, in whatever way they are
grouped. -/
lemma eq_empty_of_form_ne (ha : a.Regular) (hb : b.Regular) (hc : c.Regular)
    (hau : a ≠ .universal) (hbu : b ≠ .universal) (hcu : c ≠ .universal)
    (hform : ¬ (a.form = b.form ∧ b.form = c.form)) (hx : a.intersect b = .ok x)
    (hz : b.intersect c = .ok z) : x.intersect c = .ok .empty ∧ a.intersect z = .ok .empty := by
  have hau' := mt form_eq_universal.mp hau
  have hcu' := mt form_eq_universal.mp hcu
  constructor
  · rcases (makes_of_intersect ha hb hx).form_eq hau hbu with rfl | ⟨hxa, hab⟩
    · exact intersect_empty_left c
    · exact intersect_of_form_ne (hxa ▸ hau') hcu' fun h => hform ⟨hab, hab ▸ hxa ▸ h⟩
  · rcases (makes_of_intersect hb hc hz).form_eq hbu hcu with rfl | ⟨hzb, hbc⟩
    · exact intersect_empty_right a
    · have hzu : z.form ≠ .universal := hzb ▸ mt form_eq_universal.mp hbu
      exact intersect_of_form_ne hau' hzu fun h => hform ⟨h.trans hzb, hbc⟩

/-- Constraints that ask for one text each agree, or have nothing in common. -/
lemma intersect_assoc_of_keyed (ha : a.form.IsKeyed) (hab : a.form = b.form)
    (hbc : b.form = c.form) (hx : a.intersect b = .ok x) (hz : b.intersect c = .ok z) :
    x.intersect c = a.intersect z := by
  rw [intersect_of_keyed ha hab] at hx
  rw [intersect_of_keyed (hab ▸ ha) hbc] at hz
  cases hx
  cases hz
  by_cases h : a = b
  · subst h
    by_cases h' : a = c
    · subst h'
      rw [if_pos rfl]
    · rw [if_pos rfl, if_neg h', intersect_of_keyed ha hbc, if_neg h', intersect_empty_right]
  · rw [if_neg h, intersect_empty_left]
    by_cases h' : b = c
    · rw [if_pos h', intersect_of_keyed ha hab, if_neg h]
    · rw [if_neg h', intersect_empty_right]

/-- Intersection is associative. -/
lemma same_of_assoc (ha : a.Regular) (hb : b.Regular) (hc : c.Regular)
    (hx : a.intersect b = .ok x) (hy : x.intersect c = .ok y) (hz : b.intersect c = .ok z)
    (hw : a.intersect z = .ok w) : Same y w := by
  have hxr := (makes_of_intersect ha hb hx).regular ha hb
  have hyr := (makes_of_intersect hxr hc hy).regular hxr hc
  have same_of_eq (h : x.intersect c = a.intersect z) : Same y w := by
    rw [hy, hw] at h
    exact Except.ok.inj h ▸ same_refl hyr
  by_cases hau : a = .universal
  · subst hau
    cases hx
    exact same_of_eq (by rw [hz, intersect_universal_left])
  by_cases hbu : b = .universal
  · subst hbu
    rw [intersect_universal_right] at hx
    cases hx
    cases hz
    exact same_of_eq rfl
  by_cases hcu : c = .universal
  · subst hcu
    rw [intersect_universal_right] at hz
    cases hz
    exact same_of_eq (by rw [hx, intersect_universal_right])
  by_cases hform : a.form = b.form ∧ b.form = c.form
  · obtain ⟨hab, hbc⟩ := hform
    by_cases hkeyed : a.form.IsKeyed
    · exact same_of_eq (intersect_assoc_of_keyed hkeyed hab hbc hx hz)
    · cases a with
      | universal => exact absurd rfl hau
      | empty =>
        rw [intersect_empty_left] at hx
        cases hx
        exact same_of_eq (by rw [intersect_empty_left, intersect_empty_left])
      | range is s =>
        cases b <;> cases hab
        cases c <;> cases hbc
        have hy' := (isOf_of_intersectRanges ha hb hx).intersect_range hc hy
        have hw' := (isOf_of_intersectRanges hb hc hz).range_intersect ha hw
        rw [← Span.meets_assoc] at hw'
        exact hy'.same hw'
      | revision _ | branch _ | literal _ => exact absurd trivial hkeyed
  · obtain ⟨hy', hw'⟩ := eq_empty_of_form_ne ha hb hc hau hbu hcu hform hx hz
    exact same_of_eq (hy'.trans hw'.symm)

/-- Intersection is commutative and associative: both sides are equal and have the same text. -/
theorem intersect_comm_assoc :
    (∀ a b x y : Constraint, a.Regular → b.Regular →
      a.intersect b = .ok x → b.intersect a = .ok y →
        x.equal y = .ok true ∧ x.text = y.text) ∧
    ∀ a b c x y z w : Constraint, a.Regular → b.Regular → c.Regular →
      a.intersect b = .ok x → x.intersect c = .ok y →
      b.intersect c = .ok z → a.intersect z = .ok w →
        y.equal w = .ok true ∧ y.text = w.text := by
  constructor
  · intro a b x y ha hb hx hy
    obtain ⟨hequal, htext⟩ := same_of_comm ha hb hx hy
    exact ⟨hequal, htext⟩
  · intro a b c x y z w ha hb hc hx hy hz hw
    obtain ⟨hequal, htext⟩ := same_of_assoc ha hb hc hx hy hz hw
    exact ⟨hequal, htext⟩

/-- The build of a bound tells which constraint it comes from, but neither the comparison nor the text
of constraints shows it. -/
theorem intersect_comm_assoc_sample :
    let built := sampleBuilt ">=1.2.0-beta.3+7 <2"
    (∃ x y, sample.intersect built = .ok x ∧ built.intersect sample = .ok y ∧ x ≠ y ∧
      x.equal y = .ok true ∧ x.text = y.text) ∧
    ∃ x y z w, sampleOther.intersect sample = .ok x ∧ x.intersect built = .ok y ∧
      sample.intersect built = .ok z ∧ sampleOther.intersect z = .ok w ∧
        y.equal w = .ok true ∧ y.text = w.text := by
  intro built
  have hbuilt : built.Regular := regular_sampleBuilt _
  have hfirst : sample.intersect built = .ok (sampleBuilt sample.text) := by decide +kernel
  have hsecond : built.intersect sample = .ok sample := by decide +kernel
  have hother : sampleOther.intersect sample = .ok sample := by decide +kernel
  have hjoined : sampleOther.intersect (sampleBuilt sample.text) = .ok (sampleBuilt sample.text) := by
    decide +kernel
  exact ⟨⟨_, _, hfirst, hsecond, by decide,
      intersect_comm_assoc.1 sample built _ _ Range.regular_sample hbuilt hfirst hsecond⟩,
    _, _, _, _, hother, hfirst, hfirst, hjoined, intersect_comm_assoc.2 sampleOther sample built _ _ _
      _ Range.regular_sampleOther Range.regular_sample hbuilt hother hfirst hfirst hjoined⟩

end Constraint

end VersionConstraints
