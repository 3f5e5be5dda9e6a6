import VersionConstraints.Proofs.Interval.Limits

/-!
# Releases in intervals

A release compares to any other version as their tiers do, so no release is compared by identifiers.
Folding comparators into two bounds and normalizing them therefore keeps every release apart from
those that some comparator excludes, also where prereleases are confused.
-/

namespace VersionConstraints

namespace Tier

variable {r s : Release}

@[simp] lemma at_lt_at : Tier.at r < Tier.at s ↔ r < s := by
  simp [Tier.at, Prod.Lex.toLex_lt_toLex]

@[simp] lemma at_inj : Tier.at r = Tier.at s ↔ r = s := by
  simp [Tier.at]

@[simp] lemma at_le_at : Tier.at r ≤ Tier.at s ↔ r ≤ s := by
  rw [le_iff_lt_or_eq, le_iff_lt_or_eq, at_lt_at, at_inj]

@[simp] lemma below_ne_at : Tier.below r ≠ Tier.at s := by
  simp [Tier.below, Tier.at]

@[simp] lemma at_ne_below : Tier.at r ≠ Tier.below s :=
  below_ne_at.symm

end Tier

namespace Semver

variable {v w : Semver}

/-- One tier holds releases or prereleases, never both. -/
lemma isPrerelease_eq_of_tier_eq (h : v.tier = w.tier) : v.isPrerelease = w.isPrerelease :=
  Bool.not_inj (Prod.mk.inj (toLex.injective h)).2

/-- On the tier of a release all versions are of equal order. -/
lemma order_eq_of_tier_eq (hv : v.isPrerelease = false) (h : v.tier = w.tier) :
    v.order w = .eq := by
  have hrelease := (Prod.mk.inj (toLex.injective h)).1
  have hw : w.isPrerelease = false := (isPrerelease_eq_of_tier_eq h).symm.trans hv
  have hvnil : v.prerelease = [] := by simpa [isPrerelease] using hv
  have hwnil : w.prerelease = [] := by simpa [isPrerelease] using hw
  rw [order, (compares_compare v.release w.release).eq_eq.mpr hrelease, hvnil, hwnil]
  rfl

/-- A release compares to a version as its tier does. -/
lemma order_compares_tier (hv : v.isPrerelease = false) :
    (v.order w).Compares v.tier w.tier := by
  rcases lt_trichotomy v.tier w.tier with hlt | heq | hgt
  · rw [(order_of_tier_lt hlt).1]
    exact hlt
  · rw [order_eq_of_tier_eq hv heq]
    exact heq
  · rw [(order_of_tier_lt hgt).2]
    exact hgt

lemma tier_of_not_isPrerelease (hv : v.isPrerelease = false) : v.tier = .at v.release := by
  rw [tier, hv]
  rfl

end Semver

/-! ### Bounds -/

namespace Bound

variable {a b : Bound} {v w : Semver} {x y z : Option Bound}

/-- Whether a version lies above a lower bound, as the order of versions has it. -/
def Precedes (b : Bound) (v : Semver) : Prop :=
  v.order b.version = .gt ∨ v.order b.version = .eq ∧ b.inclusive = true

/-- Whether a version lies below an upper bound, as the order of versions has it. -/
def Exceeds (b : Bound) (v : Semver) : Prop :=
  v.order b.version = .lt ∨ v.order b.version = .eq ∧ b.inclusive = true

/-- A bound is below a version when it precedes it in order. -/
lemma isBelow_iff (hb : b.version.Comparable) (hv : v.Comparable) :
    b.isBelow v = .ok true ↔ b.Precedes v := by
  rw [isBelow, hv.compare_eq hb, ok_bind, Precedes]
  cases v.order b.version <;> simp

/-- A bound is above a version when it exceeds it in order. -/
lemma isAbove_iff (hb : b.version.Comparable) (hv : v.Comparable) :
    b.isAbove v = .ok true ↔ b.Exceeds v := by
  rw [isAbove, hv.compare_eq hb, ok_bind, Exceeds]
  cases v.order b.version <;> simp

section Release

variable (hv : v.isPrerelease = false)

include hv

/-- Against a release, preceding is decided by the tiers and the inclusion. -/
lemma precedes_iff_tier :
    b.Precedes v ↔ b.version.tier < v.tier ∨ b.version.tier = v.tier ∧ b.inclusive = true := by
  have hcompares := Semver.order_compares_tier (w := b.version) hv
  rw [Precedes, hcompares.eq_gt, hcompares.eq_eq, eq_comm (a := v.tier)]

/-- Against a release, exceeding is decided by the tiers and the inclusion. -/
lemma exceeds_iff_tier :
    b.Exceeds v ↔ v.tier < b.version.tier ∨ v.tier = b.version.tier ∧ b.inclusive = true := by
  have hcompares := Semver.order_compares_tier (w := b.version) hv
  rw [Exceeds, hcompares.eq_lt, hcompares.eq_eq]

/-- What is not above a release is below the upper bounds that the release is below. -/
lemma Exceeds.of_le (h : b.Exceeds v) (hle : w.tier ≤ v.tier) : b.Exceeds w := by
  rcases hle.lt_or_eq with hlt | heq
  · refine .inl (Semver.order_of_tier_lt (hlt.trans_le ?_)).1
    exact ((exceeds_iff_tier hv).mp h).elim le_of_lt fun h => h.1.le
  · have hw : w.isPrerelease = false := (Semver.isPrerelease_eq_of_tier_eq heq).trans hv
    rw [exceeds_iff_tier hw, heq]
    exact (exceeds_iff_tier hv).mp h

/-! ### The tighter of two bounds -/

/-- Versions that differ in order are not both the release. -/
lemma not_tier_eq_of_order_ne (h : a.version.order b.version ≠ .eq) :
    ¬ (a.version.tier = v.tier ∧ b.version.tier = v.tier) := by
  rintro ⟨ha, hb⟩
  have hp : a.version.isPrerelease = false := (Semver.isPrerelease_eq_of_tier_eq ha).trans hv
  exact h (Semver.order_eq_of_tier_eq hp (ha.trans hb.symm))

/-- A bound on no higher tier precedes what another one precedes, unless both are on the tier of the
version. -/
lemma Precedes.of_tier_le (ha : a.Precedes v) (hle : b.version.tier ≤ a.version.tier)
    (hne : ¬ (a.version.tier = v.tier ∧ b.version.tier = v.tier)) : b.Precedes v := by
  rw [precedes_iff_tier hv] at ha ⊢
  rcases ha with hlt | ⟨heq, -⟩
  · exact .inl (hle.trans_lt hlt)
  · exact .inl (lt_of_le_of_ne (heq ▸ hle) fun hb => hne ⟨heq, hb⟩)

/-- A bound on no lower tier exceeds what another one exceeds, unless both are on the tier of the
version. -/
lemma Exceeds.of_tier_le (ha : a.Exceeds v) (hle : a.version.tier ≤ b.version.tier)
    (hne : ¬ (a.version.tier = v.tier ∧ b.version.tier = v.tier)) : b.Exceeds v := by
  rw [exceeds_iff_tier hv] at ha ⊢
  rcases ha with hlt | ⟨heq, -⟩
  · exact .inl (hlt.trans_le hle)
  · exact .inl (lt_of_le_of_ne (heq ▸ hle) fun hb => hne ⟨heq.symm, hb.symm⟩)

/-- What a greater lower bound precedes, the smaller one precedes. -/
lemma precedes_of_order_gt (h : a.version.order b.version = .gt) (ha : a.Precedes v) :
    b.Precedes v :=
  ha.of_tier_le hv (Semver.tier_le_of_order_ne_lt (by simp [h]))
    (not_tier_eq_of_order_ne hv (by simp [h]))

lemma precedes_of_order_lt (h : a.version.order b.version = .lt) (hb : b.Precedes v) :
    a.Precedes v :=
  hb.of_tier_le hv (Semver.tier_le_of_order_ne_gt (by simp [h]))
    (mt And.symm (not_tier_eq_of_order_ne hv (by simp [h])))

/-- What a smaller upper bound exceeds, the greater one exceeds. -/
lemma exceeds_of_order_lt (h : a.version.order b.version = .lt) (ha : a.Exceeds v) :
    b.Exceeds v :=
  ha.of_tier_le hv (Semver.tier_le_of_order_ne_gt (by simp [h]))
    (not_tier_eq_of_order_ne hv (by simp [h]))

lemma exceeds_of_order_gt (h : a.version.order b.version = .gt) (hb : b.Exceeds v) :
    a.Exceeds v :=
  hb.of_tier_le hv (Semver.tier_le_of_order_ne_lt (by simp [h]))
    (mt And.symm (not_tier_eq_of_order_ne hv (by simp [h])))

/-- A release lies above the tighter of two lower bounds if it lies above both. -/
lemma tighterLower_precedes (hx : Comparable x) (hy : Comparable y)
    (h : tighterLower x y = .ok z) :
    (∀ b ∈ z, b.Precedes v) ↔ (∀ b ∈ x, b.Precedes v) ∧ ∀ b ∈ y, b.Precedes v := by
  cases x with
  | none =>
    cases h
    simp
  | some a =>
    cases y with
    | none =>
      cases h
      simp
    | some b =>
      rw [tighterLower, (hx a rfl).compare_eq (hy b rfl), ok_bind] at h
      simp only [Option.mem_def, Option.some.injEq, forall_eq']
      cases ho : a.version.order b.version with
      | gt =>
        rw [ho] at h
        cases h
        simpa using precedes_of_order_gt hv ho
      | lt =>
        rw [ho] at h
        cases h
        simpa using precedes_of_order_lt hv ho
      | eq =>
        rw [ho] at h
        cases h
        -- At one tier only the bound that is not inclusive matters.
        simp only [precedes_iff_tier hv, Semver.tier_eq_of_order_eq ho]
        cases hinclusive : a.inclusive <;>
          simp [Semver.tier_eq_of_order_eq ho, hinclusive] <;> tauto

/-- A release lies below the tighter of two upper bounds if it lies below both. -/
lemma tighterUpper_exceeds (hx : Comparable x) (hy : Comparable y)
    (h : tighterUpper x y = .ok z) :
    (∀ b ∈ z, b.Exceeds v) ↔ (∀ b ∈ x, b.Exceeds v) ∧ ∀ b ∈ y, b.Exceeds v := by
  cases x with
  | none =>
    cases h
    simp
  | some a =>
    cases y with
    | none =>
      cases h
      simp
    | some b =>
      rw [tighterUpper, (hx a rfl).compare_eq (hy b rfl), ok_bind] at h
      simp only [Option.mem_def, Option.some.injEq, forall_eq']
      cases ho : a.version.order b.version with
      | lt =>
        rw [ho] at h
        cases h
        simpa using exceeds_of_order_lt hv ho
      | gt =>
        rw [ho] at h
        cases h
        simpa using exceeds_of_order_gt hv ho
      | eq =>
        rw [ho] at h
        cases h
        simp only [exceeds_iff_tier hv, Semver.tier_eq_of_order_eq ho]
        cases hinclusive : a.inclusive <;>
          simp [Semver.tier_eq_of_order_eq ho, hinclusive] <;> tauto

end Release

end Bound

/-! ### Comparators -/

/-- A release satisfies a comparator exactly when it lies within the comparator's bounds. -/
lemma Comparator.satisfies_iff_bounds {c : Comparator} {v : Semver} :
    c.Satisfies v ↔ (∀ b ∈ c.lower?, b.Precedes v) ∧ ∀ b ∈ c.upper?, b.Exceeds v := by
  cases c with
  | any => simp [Satisfies, lower?, upper?]
  | bounded o w =>
    cases o <;> cases ho : v.order w <;>
      simp [Satisfies, lower?, upper?, Operator.Allows, Bound.Precedes, Bound.Exceeds, ho]

/-! ### Intervals -/

namespace Interval

variable {i j : Interval} {v w : Semver} {lower upper x : Option Bound} {b : Bound} {c : Comparator}
  {cs : List Comparator} {a : Alternative} {o : Option Interval} {rs allowed : List Release}

/-- Whether a version lies between two bounds, as the order of versions has it. -/
structure Encloses (lower upper : Option Bound) (v : Semver) : Prop where
  lower : ∀ b ∈ lower, b.Precedes v
  upper : ∀ b ∈ upper, b.Exceeds v

lemma encloses_iff :
    Encloses lower upper v ↔ (∀ b ∈ lower, b.Precedes v) ∧ ∀ b ∈ upper, b.Exceeds v :=
  ⟨fun h => ⟨h.lower, h.upper⟩, fun h => ⟨h.1, h.2⟩⟩

lemma isAboveLower_iff (hlower : Bound.Comparable lower) (hv : v.Comparable) :
    isAboveLower lower v = .ok true ↔ ∀ b ∈ lower, b.Precedes v := by
  cases lower with
  | none => exact iff_of_true rfl nofun
  | some b => exact (Bound.isBelow_iff (hlower b rfl) hv).trans (by simp)

lemma isBelowUpper_iff (hupper : Bound.Comparable upper) (hv : v.Comparable) :
    isBelowUpper upper v = .ok true ↔ ∀ b ∈ upper, b.Exceeds v := by
  cases upper with
  | none => exact iff_of_true rfl nofun
  | some b => exact (Bound.isAbove_iff (hupper b rfl) hv).trans (by simp)

section Release

variable (hrelease : v.isPrerelease = false)

include hrelease

/-- An interval contains the releases between its bounds. -/
lemma contains_iff_encloses (hi : i.Comparable) (hv : v.Comparable) :
    i.contains v = .ok true ↔ Encloses i.lower i.upper v := by
  rw [encloses_iff, ← isAboveLower_iff hi.lower hv, ← isBelowUpper_iff hi.upper hv, contains]
  obtain ⟨above, habove⟩ := exists_isAboveLower hi.lower hv
  obtain ⟨below, hbelow⟩ := exists_isBelowUpper hi.upper hv
  rw [habove, hbelow]
  cases above <;> cases below <;> simp [hrelease]

/-- Tightening by a comparator adds its condition on releases. -/
lemma encloses_of_tighten (hi : i.Comparable) (hc : c.Comparable) (h : i.tighten c = .ok j) :
    Encloses j.lower j.upper v ↔ Encloses i.lower i.upper v ∧ c.Satisfies v := by
  rw [tighten_eq] at h
  obtain ⟨lower, hlower, h⟩ := bind_eq_ok.mp h
  obtain ⟨upper, hupper, h⟩ := bind_eq_ok.mp h
  cases h
  rw [encloses_iff, encloses_iff, Comparator.satisfies_iff_bounds,
    Bound.tighterLower_precedes hrelease hi.lower hc.lower hlower,
    Bound.tighterUpper_exceeds hrelease hi.upper hc.upper hupper]
  exact and_and_and_comm

/-- Tightening by a list adds the condition of each comparator on releases. -/
lemma encloses_of_tightenAll (hi : i.Comparable) (hcs : ∀ c ∈ cs, c.Comparable)
    (h : i.tightenAll cs = .ok j) :
    Encloses j.lower j.upper v ↔ Encloses i.lower i.upper v ∧ ∀ c ∈ cs, c.Satisfies v := by
  induction cs generalizing i with
  | nil =>
    cases h
    simp
  | cons c cs ih =>
    obtain ⟨hc, hcs⟩ := List.forall_mem_cons.mp hcs
    obtain ⟨k, hk, h⟩ := bind_eq_ok.mp h
    rw [ih (comparable_of_tighten hi hc hk) hcs h, encloses_of_tighten hrelease hi hc hk,
      List.forall_mem_cons, and_assoc]

/-! ### Normalization -/

/-- For a release, a settled lower bound is as good as the bound. -/
lemma precedes_settle : (settle rs true b).Precedes v ↔ b.Precedes v := by
  obtain heq | ⟨r, -, htier, heq⟩ := settle_cases true rs b
  · rw [heq]
  · rw [heq, Bound.precedes_iff_tier hrelease, Bound.precedes_iff_tier hrelease, htier,
      Semver.tier_of_not_isPrerelease hrelease, Semver.tier_of_not_isPrerelease rfl]
    simp [Tier.below_lt_at, le_iff_lt_or_eq, Semver.ofRelease]

/-- For a release, a settled upper bound is as good as the bound. -/
lemma exceeds_settle : (settle rs false b).Exceeds v ↔ b.Exceeds v := by
  obtain heq | ⟨r, -, htier, heq⟩ := settle_cases false rs b
  · rw [heq]
  · rw [heq, Bound.exceeds_iff_tier hrelease, Bound.exceeds_iff_tier hrelease, htier,
      Semver.tier_of_not_isPrerelease hrelease, Semver.tier_of_not_isPrerelease rfl]
    simp [Tier.at_lt_below, Semver.ofRelease]

/-- Settling the bounds changes nothing for releases. -/
lemma encloses_settle :
    Encloses (lower.map (settle rs true)) (upper.map (settle rs false)) v ↔
      Encloses lower upper v := by
  simp [encloses_iff, precedes_settle hrelease, exceeds_settle hrelease]

/-- No release above a lower bound is lower than the lowest one. -/
lemma tier_lowestRelease_le (hv : ∀ b ∈ lower, b.Precedes v) (h : lowestRelease lower = .ok w) :
    w.tier ≤ v.tier := by
  have htier := Semver.tier_of_not_isPrerelease hrelease
  cases lower with
  | none =>
    cases h
    rw [htier]
    exact Tier.at_le_at.mpr v.release.zero_le
  | some b =>
    have hprecedes := (Bound.precedes_iff_tier hrelease).mp (hv b rfl)
    rw [lowestRelease] at h
    cases hp : b.version.isPrerelease with
    | true =>
      rw [hp, if_pos rfl] at h
      cases h
      rw [Semver.tier_eq_below_iff.mpr ⟨hp, rfl⟩, htier] at hprecedes
      rw [htier]
      exact Tier.at_le_at.mpr (Tier.below_lt_at.mp (hprecedes.resolve_right (by simp)))
    | false =>
      rw [hp, if_neg Bool.false_ne_true] at h
      cases hinclusive : b.inclusive with
      | true =>
        rw [hinclusive, if_pos rfl] at h
        cases h
        exact hprecedes.elim le_of_lt fun h => h.1.le
      | false =>
        rw [hinclusive, if_neg Bool.false_ne_true] at h
        obtain ⟨rfl, -⟩ := Semver.eq_of_nextPatch h
        rw [Semver.tier_of_not_isPrerelease hp, htier, hinclusive, Tier.at_lt_at] at hprecedes
        rw [htier]
        exact Tier.at_le_at.mpr (Release.patch_succ_le_iff.mpr (hprecedes.resolve_right (by simp)))

/-- If a release lies between two bounds, then the lowest one above the lower bound does. -/
lemma admitsRelease_ne_false (hlower : Bound.Comparable lower) (hupper : Bound.Comparable upper)
    (hv : Encloses lower upper v) : admitsRelease lower upper ≠ .ok false := by
  intro h
  obtain ⟨w, hw, h⟩ := bind_eq_ok.mp h
  have hle := tier_lowestRelease_le hrelease hv.lower hw
  have hbelow : isBelowUpper upper w = .ok true :=
    (isBelowUpper_iff hupper (comparable_of_lowestRelease hlower hw)).mpr fun b hb =>
      (hv.upper b hb).of_le hrelease hle
  rw [hbelow] at h
  cases h

/-- Normalization keeps the releases between two bounds. -/
lemma contains_normalize_iff (hlower : Bound.Comparable lower) (hupper : Bound.Comparable upper)
    (hv : v.Comparable) (h : normalize lower upper allowed = .ok o) :
    (∃ i ∈ o, i.contains v = .ok true) ↔ Encloses lower upper v := by
  have hsettled (rs : List Release) :
      Comparable ⟨lower.map (settle rs true), upper.map (settle rs false)⟩ :=
    ⟨comparable_settle hlower, comparable_settle hupper⟩
  cases o with
  | some i =>
    obtain ⟨rs, -, rfl, -⟩ := exists_of_normalize h
    have hcontains := contains_iff_encloses hrelease (hsettled rs) hv
    rw [encloses_settle hrelease] at hcontains
    simpa using hcontains
  | none =>
    refine iff_of_false (by simp) fun henc => ?_
    obtain ⟨rs, -, h⟩ := bind_eq_ok.mp h
    dsimp only at h
    split at h
    · cases h
    · obtain ⟨ok, hok, h⟩ := bind_eq_ok.mp h
      cases ok with
      | true => cases h
      | false =>
        refine admitsRelease_ne_false hrelease (hsettled rs).lower (hsettled rs).upper ?_ hok
        exact (encloses_settle hrelease).mpr henc

/-- The interval of an alternative contains the releases that satisfy its comparators, and there is
no interval if no release satisfies them. -/
theorem contains_ofAlternative_iff (ha : ∀ c ∈ a, c.Comparable) (hv : v.Comparable)
    (h : ofAlternative a = .ok o) :
    (∃ i ∈ o, i.contains v = .ok true) ↔ ∀ c ∈ a, c.Satisfies v := by
  obtain ⟨j, hj, h⟩ := bind_eq_ok.mp h
  have hnone : Comparable ⟨none, none⟩ := ⟨Bound.comparable_none, Bound.comparable_none⟩
  have hcomparable := (tightened_of_tightenAll hnone ha hj).comparable hnone ha
  rw [contains_normalize_iff hrelease hcomparable.lower hcomparable.upper hv h,
    encloses_of_tightenAll hrelease hnone ha hj]
  exact and_iff_right ⟨nofun, nofun⟩

end Release

end Interval

end VersionConstraints
