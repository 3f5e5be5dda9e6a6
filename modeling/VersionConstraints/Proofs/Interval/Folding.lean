import VersionConstraints.Comparator.Satisfaction
import VersionConstraints.Proofs.Interval.Normalize

/-!
# Folding comparators

A comparator is a lower bound, an upper bound or both. Folding the comparators of an alternative
keeps the tightest bounds only, and with them the bounds it needs: when a prerelease lies between
the tightest bounds, and a comparator is a prerelease of the same release, then so is one of the
bounds. So the interval of an alternative contains the versions that satisfy it.
-/

namespace VersionConstraints

/-! ### Comparators as bounds -/

namespace Comparator

def lower? : Comparator → Option Bound
  | .bounded .equal v   => some ⟨v, true⟩
  | .bounded .atLeast v => some ⟨v, true⟩
  | .bounded .above v   => some ⟨v, false⟩
  | _                   => none

def upper? : Comparator → Option Bound
  | .bounded .equal v  => some ⟨v, true⟩
  | .bounded .atMost v => some ⟨v, true⟩
  | .bounded .below v  => some ⟨v, false⟩
  | _                  => none

def Regular : Comparator → Prop
  | .any         => True
  | .bounded _ v => v.Regular

/-- The cuts of the bounds of a comparator. -/
def span (c : Comparator) : Span :=
  .of (Bound.lowerCut? c.lower?) (Bound.upperCut? c.upper?)

variable {c : Comparator} {v : Semver} {r : Release}

lemma prereleaseOf?_bounded {o : Operator} :
    (bounded o v).prereleaseOf? = some r ↔ v.isPrerelease = true ∧ v.release = r := by
  simp [prereleaseOf?]

lemma Regular.lower (h : c.Regular) : Bound.Regular c.lower? := by
  cases c with
  | any => exact Bound.regular_none
  | bounded o w =>
    cases o with
    | equal | atLeast | above => exact Bound.regular_some.mpr h
    | below | atMost => exact Bound.regular_none

lemma Regular.upper (h : c.Regular) : Bound.Regular c.upper? := by
  cases c with
  | any => exact Bound.regular_none
  | bounded o w =>
    cases o with
    | equal | atMost | below => exact Bound.regular_some.mpr h
    | above | atLeast => exact Bound.regular_none

/-- A comparator with a lower bound names the release that the bound names. -/
lemma prereleaseOf?_of_lower? {b : Bound} (h : c.lower? = some b) :
    c.prereleaseOf? = b.prereleaseOf? := by
  cases c with
  | any => cases h
  | bounded o v => cases o <;> cases h <;> rfl

/-- The releases of regular comparators have safe numbers. -/
lemma Regular.safe (h : c.Regular) (hr : c.prereleaseOf? = some r) : r.Safe := by
  cases c with
  | any => cases hr
  | bounded o w =>
    obtain ⟨-, rfl⟩ := prereleaseOf?_bounded.mp hr
    exact h.wellFormed.release

/-- A version satisfies a comparator if it lies between its bounds. -/
lemma satisfies_iff (hc : c.Regular) (hv : v.Comparable) :
    c.Satisfies v ↔ Span.Between c.span.lower c.span.upper v.precedence := by
  have hbot : ⊥ ≤ Cut.before v.precedence := bot_le
  have htop : Cut.before v.precedence < ⊤ := Cut.beside_lt_top
  cases c with
  | any => exact iff_of_true trivial ⟨hbot, htop⟩
  | bounded o w =>
    have hcompares := hv.wellFormed.order_compares hc
    cases o with
    | equal =>
      refine hcompares.eq_eq.trans (le_antisymm_iff.trans and_comm |>.trans ?_)
      exact and_congr Cut.before_le_before.symm Cut.before_lt_behind.symm
    | below => exact hcompares.eq_lt.trans (Cut.before_lt_before.symm.trans (and_iff_right hbot).symm)
    | atMost => exact hcompares.ne_gt.trans (Cut.before_lt_behind.symm.trans (and_iff_right hbot).symm)
    | above => exact hcompares.eq_gt.trans (Cut.behind_le_before.symm.trans (and_iff_left htop).symm)
    | atLeast => exact hcompares.ne_lt.trans (Cut.before_le_before.symm.trans (and_iff_left htop).symm)

/-- A comparator that is a prerelease is one of its bounds. -/
lemma names_span (h : c.prereleaseOf? = some r) : c.span.Names r := by
  cases c with
  | any => cases h
  | bounded o w =>
    have hzone (x : Bool) : .beside w.precedence x ∈ Cut.zone r :=
      Cut.beside_precedence_mem_zone.mpr (prereleaseOf?_bounded.mp h)
    cases o with
    | equal | above | atLeast => exact .inl (hzone _)
    | below | atMost => exact .inr (hzone _)

end Comparator

/-! ### Tightening -/

namespace Interval

variable {i : Interval} {c : Comparator} {cs : List Comparator}

/-- A comparator tightens two bounds by one of its own on either side, where it has one. -/
lemma tighten_eq (i : Interval) (c : Comparator) :
    i.tighten c = do
      let lower ← Bound.tighterLower i.lower c.lower?
      let upper ← Bound.tighterUpper i.upper c.upper?
      return ⟨lower, upper⟩ := by
  cases c with
  | any => simp [tighten, Comparator.lower?, Comparator.upper?]
  | bounded o v =>
    cases o <;> simp [tighten, Comparator.lower?, Comparator.upper?]

/-- Tightening by a comparator leaves what lies between its bounds. -/
lemma tighten_spec (hi : i.Regular) (hc : c.Regular) :
    Yields (i.tighten c) fun j => j.Regular ∧ j.span.lower = max i.span.lower c.span.lower ∧
      j.span.upper = min i.span.upper c.span.upper := by
  rw [tighten_eq]
  apply (Bound.tighterLower_spec hi.lower hc.lower).bind
  rintro lower ⟨hlower, hmax⟩
  apply (Bound.tighterUpper_spec hi.upper hc.upper).bind
  rintro upper ⟨hupper, hmin⟩
  exact .ok ⟨⟨hlower, hupper⟩, hmax, hmin⟩

/-- Tightening by comparators leaves what lies between the bounds of all of them. -/
lemma tightenAll_spec (hi : i.Regular) (hcs : ∀ c ∈ cs, c.Regular) :
    Yields (i.tightenAll cs) fun j => j.Regular ∧
      (∀ p, Span.Between j.span.lower j.span.upper p ↔ Span.Between i.span.lower i.span.upper p ∧
        ∀ c ∈ cs, Span.Between c.span.lower c.span.upper p) ∧
      (i.span.lower ≤ j.span.lower ∧ j.span.upper ≤ i.span.upper) ∧
      ∀ c ∈ cs, c.span.lower ≤ j.span.lower ∧ j.span.upper ≤ c.span.upper := by
  induction cs generalizing i with
  | nil => exact .ok ⟨hi, by simp, ⟨le_rfl, le_rfl⟩, nofun⟩
  | cons c cs ih =>
    obtain ⟨hc, hcs⟩ := List.forall_mem_cons.mp hcs
    apply (tighten_spec hi hc).bind
    rintro j ⟨hj, hmax, hmin⟩
    apply (ih hj hcs).imp
    rintro k ⟨hk, hbetween, hwithin, hall⟩
    rw [hmax, hmin] at hwithin
    obtain ⟨hlower, hlower'⟩ := max_le_iff.mp hwithin.1
    obtain ⟨hupper, hupper'⟩ := le_min_iff.mp hwithin.2
    refine ⟨hk, fun p => ?_, ⟨hlower, hupper⟩, List.forall_mem_cons.mpr ⟨⟨hlower', hupper'⟩, hall⟩⟩
    rw [hbetween, hmax, hmin, Span.between_max_min, List.forall_mem_cons, and_assoc]

/-- Comparators let in the releases of their prereleases. -/
lemma mem_prereleasesOfComparators {r : Release} :
    r ∈ prereleasesOfComparators cs ↔ ∃ c ∈ cs, c.prereleaseOf? = some r := by
  rw [prereleasesOfComparators, List.mem_eraseDups, List.mem_filterMap]

/-- The interval of an alternative realizes a span that holds what satisfies the alternative. -/
theorem ofAlternative_spec {a : Alternative} (ha : ∀ c ∈ a, c.Regular) {o : Option Interval}
    (h : ofAlternative a = .ok o) : ∃ s : Span, Realizes s o ∧
      ∀ v : Semver, v.Comparable → (s.Holds v.precedence ↔ a.Satisfies v) := by
  obtain ⟨j, hj, h⟩ := bind_eq_ok.mp h
  have hnone : Interval.Regular ⟨none, none⟩ := ⟨Bound.regular_none, Bound.regular_none⟩
  obtain ⟨hregular, hbetween, -, hwithin⟩ := (tightenAll_spec hnone ha).of_eq_ok hj
  have hsafe : ∀ r ∈ prereleasesOfComparators a, r.Safe := by
    intro r hr
    obtain ⟨c, hc, hcr⟩ := mem_prereleasesOfComparators.mp hr
    exact (ha c hc).safe hcr
  have hbacked : Span.Backed j.span.lower j.span.upper { r | r ∈ prereleasesOfComparators a } := by
    intro r hr
    obtain ⟨c, hc, hcr⟩ := mem_prereleasesOfComparators.mp hr
    rcases Comparator.names_span hcr with hzone | hzone
    · exact ⟨_, hzone, .inl (hwithin c hc).1⟩
    · exact ⟨_, hzone, .inr (hwithin c hc).2⟩
  refine ⟨_, normalize_spec hregular.lower hregular.upper hsafe hbacked h, ?_⟩
  intro v hv
  have hall : Span.Between j.span.lower j.span.upper v.precedence ↔ ∀ c ∈ a, c.Satisfies v := by
    rw [hbetween]
    refine (and_iff_right ⟨bot_le, Cut.beside_lt_top⟩).trans ?_
    exact forall₂_congr fun c hc => (Comparator.satisfies_iff (ha c hc) hv).symm
  have hprerelease : (∀ r, .before v.precedence ∈ Cut.zone r → r ∈ prereleasesOfComparators a) ↔
      (v.isPrerelease = true → ∃ c ∈ a, c.prereleaseOf? = some v.release) := by
    simp only [← mem_prereleasesOfComparators]
    constructor
    · exact fun h hp => h _ (Cut.beside_precedence_mem_zone.mpr ⟨hp, rfl⟩)
    · intro h r hr
      obtain ⟨hp, rfl⟩ := Cut.beside_precedence_mem_zone.mp hr
      exact h hp
  exact (Span.holds_trim hbacked).trans (and_congr hall hprerelease)

end Interval

end VersionConstraints
