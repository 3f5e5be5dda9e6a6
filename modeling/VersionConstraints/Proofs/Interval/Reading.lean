import VersionConstraints.Proofs.Interval.Display

/-!
# Intervals that were read

The alternatives that are folded into intervals were read back, so none of their comparators
restricts nothing, unless it stands alone. An interval that such an alternative comes to does not
begin with the lowest release of all, unless it has that release only.
-/

namespace VersionConstraints

/-! ### The lowest release -/

/-- At or under the lowest release there is that release alone. -/
lemma Semver.release_eq_zero_of_tier_le {v : Semver} (h : v.tier ≤ .at .zero) :
    v.release = .zero := by
  have hle : v.release ≤ .zero := (Prod.Lex.le_iff'.mp h).1
  exact le_antisymm hle (Release.zero_le _)

lemma Semver.tier_le_of_release_eq_zero {v : Semver} (h : v.release = .zero) :
    v.tier ≤ .at .zero :=
  Prod.Lex.le_iff'.mpr ⟨h.le, fun _ => Bool.le_true _⟩

/-- No version of a release comes after the release itself. -/
lemma Semver.precedence_le_of_release_eq {v : Semver} {r : Release} (h : v.release = r) :
    v.precedence ≤ .ofRelease r :=
  Prod.Lex.le_iff'.mpr ⟨h.le, fun _ => le_top⟩

/-- The comparators of a readable alternative are comparable. -/
lemma Alternative.Readable.comparable {a : Alternative} (h : a.Readable) :
    ∀ c ∈ a, c.Comparable := by
  intro c hc
  rcases h with rfl | ⟨-, hbounded⟩
  · rw [List.mem_singleton.mp hc]
    trivial
  · obtain ⟨o, v, rfl, hv⟩ := hbounded c hc
    exact hv

namespace Interval

variable {i j k : Interval} {a : Alternative} {c : Comparator} {b : Bound} {r : Release}
  {lower upper : Option Bound} {allowed rs : List Release}

lemma release_settle (inclusive : Bool) (rs : List Release) (b : Bound) :
    (settle rs inclusive b).version.release = b.version.release := by
  obtain heq | ⟨r, -, htier, heq⟩ := settle_cases inclusive rs b
  · rw [heq]
  · rw [heq]
    exact (Semver.tier_eq_below_iff.mp htier).2.symm

/-! ### The unrestricted interval -/

lemma comparable_none : Comparable ⟨none, none⟩ :=
  ⟨Bound.comparable_none, Bound.comparable_none⟩

/-- An alternative that comes to the unrestricted interval is the unrestricted comparator alone. -/
lemma eq_any_of_ofAlternative (ha : a.Readable)
    (h : ofAlternative a = .ok (some ⟨none, none⟩)) : a = [.any] := by
  rcases ha with heq | ⟨hne, hbounded⟩
  · exact heq
  · have ha : a.Readable := .inr ⟨hne, hbounded⟩
    obtain ⟨c, hc⟩ := List.exists_mem_of_ne_nil a hne
    obtain ⟨o, v, rfl, -⟩ := hbounded c hc
    obtain ⟨j, hj, h⟩ := bind_eq_ok.mp h
    have htightened := tightened_of_tightenAll comparable_none ha.comparable hj
    obtain ⟨rs, -, hk, -⟩ := exists_of_normalize h
    have hlower : j.lower = none := Option.map_eq_none_iff.mp (congrArg Interval.lower hk).symm
    have hupper : j.upper = none := Option.map_eq_none_iff.mp (congrArg Interval.upper hk).symm
    have hup := htightened.lower_reaches _ hc v.tier
    have hdown := htightened.upper_reaches _ hc v.tier
    rw [hlower] at hup
    rw [hupper] at hdown
    cases o with
    | equal | above | atLeast =>
      exact absurd (hup (Bound.reachesUp_some.mpr le_rfl)) Bound.not_reachesUp_none
    | below | atMost =>
      exact absurd (hdown (Bound.reachesDown_some.mpr le_rfl)) Bound.not_reachesDown_none

/-! ### Intervals from the lowest release -/

/-- If an interval begins with the lowest release and its upper bound is at that release or at one
of its prereleases, then it has that release only. -/
lemma upper_eq_of_lower_eq_zero (hk : k.Regular) (hn : k.Normal)
    (hlower : k.span.lower = .before (.ofRelease .zero)) (hb : b ∈ k.upper)
    (hzero : b.version.release = .zero) : k.span.upper = .behind (.ofRelease .zero) := by
  obtain ⟨w, -, ⟨hlow, hhigh⟩, -⟩ := hn.exists_holds hk
  have hupper : k.span.upper = b.upperCut := congrArg Bound.upperCut? hb
  have hle := Semver.precedence_le_of_release_eq hzero
  rw [hlower] at hlow
  have hzw := Cut.before_le_before.mp hlow
  rw [hupper] at hhigh ⊢
  cases hinclusive : b.inclusive with
  | false =>
    rw [Bound.upperCut, hinclusive] at hhigh
    exact absurd (Cut.before_lt_before.mp hhigh) (not_lt.mpr (hle.trans hzw))
  | true =>
    rw [Bound.upperCut, hinclusive] at hhigh ⊢
    have hplace := le_antisymm hle (hzw.trans (Cut.before_lt_behind.mp hhigh))
    rw [hplace]
    rfl

/-- A lower bound that normalization moves to the lowest release has the upper bound at that
release or at one of its prereleases. -/
lemma reachesDown_of_settled (hlower : Bound.Comparable lower) (hupper : Bound.Comparable upper)
    (hrs : admitted lower upper allowed = .ok rs) (hb : b ∈ lower)
    (hr : b.prereleaseOf? = some r) (hsafe : r.Safe) (hallowed : r ∈ allowed) (hnot : r ∉ rs) :
    Bound.ReachesDown upper (.below r) := by
  obtain ⟨ok, hok⟩ := exists_admitsPrereleaseOf hrs r hallowed
  have hfalse : ok = false := by
    rw [← Bool.not_eq_true]
    rintro rfl
    exact hnot ((mem_admitted hrs).mpr ⟨hallowed, hok⟩)
  obtain ⟨o, ho, hok⟩ := bind_eq_ok.mp hok
  cases o with
  | none =>
    obtain rfl : lower = some b := hb
    rw [lowestPrerelease?, if_pos hr] at ho
    split at ho
    · cases ho
    · obtain ⟨w, -, ho⟩ := bind_eq_ok.mp ho
      cases ho
  | some w =>
    obtain ⟨hw, htier, -⟩ := tier_of_lowestPrerelease? hlower hsafe ho
    rw [hfalse] at hok
    cases upper with
    | none => cases hok
    | some u =>
      refine Bound.reachesDown_some.mpr (htier ▸ not_lt.mp fun hlt => ?_)
      have htrue : isBelowUpper (some u) w = .ok true :=
        Bound.isAbove_of_tier_lt (hupper u rfl) hw hlt
      cases htrue.symm.trans hok

/-- A comparator with a lower bound is the comparator of that bound, or it asks for one version. -/
lemma eq_of_lower?_eq (h : c.lower? = some b) :
    c = b.lowerComparator ∨ c = .bounded .equal b.version := by
  cases c with
  | any => cases h
  | bounded o v =>
    cases o with
    | equal =>
      cases h
      exact .inr rfl
    | atLeast | above =>
      cases h
      exact .inl rfl
    | below | atMost => cases h

/-- The lower bound that comparators leave is the one of some comparator among them. -/
lemma Tightened.exists_lower?_eq (h : Tightened ⟨none, none⟩ a i) (hb : i.lower = some b) :
    ∃ c ∈ a, c.lower? = some b := by
  rcases h.lower_mem with heq | ⟨c, hc, heq⟩
  · rw [hb] at heq
    cases heq
  · exact ⟨c, hc, heq.symm.trans hb⟩

/-- If the comparators of an alternative were read back and normalization makes their lower bound the
lowest release, then their upper bound is at that release or at one of its prereleases. -/
lemma Tightened.reachesDown_zero (h : Tightened ⟨none, none⟩ a j) (hj : j.Comparable)
    (htext : ∀ c ∈ a, c.text ≠ Expression.fromZeroText)
    (hrs : admitted j.lower j.upper (prereleasesOfComparators a) = .ok rs) (hb : j.lower = some b)
    (hcut : (settle rs true b).lowerCut = .before (.ofRelease .zero)) :
    Bound.ReachesDown j.upper (.at .zero) := by
  have hbc : b.version.Comparable := hj.lower b hb
  obtain ⟨c, hc, hcb⟩ := h.exists_lower?_eq hb
  obtain heq | ⟨r, hr, htier, heq⟩ := settle_cases true rs b
  · rw [heq] at hcut
    have hidle := (Bound.isIdle_iff hbc).mpr hcut
    -- No comparator has the idle text, so the bound comes from one that asks for a single version.
    rcases eq_of_lower?_eq hcb with rfl | rfl
    · exact absurd (b.text_lowerComparator.trans hidle) (htext _ hc)
    · have hrelease : b.version.release = .zero :=
        congrArg (·.version.release) (hidle.canonical_eq hbc)
      exact h.upper_reaches _ hc _
        (Bound.reachesDown_some.mpr (Semver.tier_le_of_release_eq_zero hrelease))
  · rw [heq] at hcut
    obtain rfl : r = .zero :=
      (Prod.mk.inj (toLex.injective (Cut.beside_inj.mp hcut).1)).1
    have hprerelease : b.prereleaseOf? = some .zero :=
      Bound.prereleaseOf?_eq_some.mpr (Semver.tier_eq_below_iff.mp htier)
    have hmem : .zero ∈ prereleasesOfComparators a :=
      mem_prereleasesOfComparators.mpr ⟨c, hc, (c.prereleaseOf?_of_lower? hcb).trans hprerelease⟩
    obtain ⟨u, hu, hle⟩ := reachesDown_of_settled hj.lower hj.upper hrs hb hprerelease
      (by decide) hmem hr
    exact ⟨u, hu, hle.trans (Tier.below_lt_at.mpr le_rfl).le⟩

/-- An interval of an alternative that was read back does not begin with the lowest release, unless
it has that release only. -/
theorem not_fromZero_of_ofAlternative (ha : a.Readable)
    (htext : ∀ c ∈ a, c.text ≠ Expression.fromZeroText) (h : ofAlternative a = .ok (some k))
    (hk : k.Regular) : ¬ k.span.FromZero := by
  rintro ⟨hlower, hupper⟩
  have hn := (normal_of_ofAlternative ha.comparable h).2
  obtain ⟨j, hj, h⟩ := bind_eq_ok.mp h
  have htightened := tightened_of_tightenAll comparable_none ha.comparable hj
  have hj := htightened.comparable comparable_none ha.comparable
  obtain ⟨rs, hrs, rfl, -⟩ := exists_of_normalize h
  cases hb : j.lower with
  | none =>
    rw [hb] at hlower
    exact Cut.bot_lt_beside.ne hlower
  | some b =>
    have hcut : (settle rs true b).lowerCut = .before (.ofRelease .zero) := by
      rw [hb] at hlower
      exact hlower
    obtain ⟨u, hu, hle⟩ := htightened.reachesDown_zero hj htext hrs hb hcut
    refine hupper (upper_eq_of_lower_eq_zero hk hn hlower
      (Option.map_eq_some_iff.mpr ⟨u, hu, rfl⟩) ?_)
    rw [release_settle]
    exact Semver.release_eq_zero_of_tier_le hle

end Interval

end VersionConstraints
