import VersionConstraints.Proofs.Interval.Folding
import VersionConstraints.Proofs.Interval.Tier

/-!
# Normal intervals

What normalization returns is normal: each release whose prereleases it lets in has one between the
bounds, and where it lets in none there is a release between them. Normalizing a normal interval
once more succeeds and changes nothing. Both hold whenever the bounds can be compared at all, even
where a comparison takes two numerals for one.
-/

namespace VersionConstraints

lemma Bound.Regular.comparable {x : Option Bound} (h : Regular x) : Comparable x :=
  fun b hb => (h b hb).toComparable

namespace Interval

variable {i j k : Interval} {lower upper x : Option Bound} {b : Bound} {r : Release} {v w : Semver}
  {rs allowed : List Release} {inclusive : Bool}

structure Comparable (i : Interval) : Prop where
  lower : Bound.Comparable i.lower
  upper : Bound.Comparable i.upper

lemma Regular.comparable (h : i.Regular) : i.Comparable :=
  ⟨h.lower.comparable, h.upper.comparable⟩

/-- Whether an interval lets in prereleases of no release in vain, nor releases if it lets in no
prereleases. -/
structure Normal (i : Interval) : Prop where
  prerelease : ∀ r ∈ i.prereleasesOf, admitsPrereleaseOf r i.lower i.upper = .ok true
  release : i.prereleasesOf = [] → admitsRelease i.lower i.upper = .ok true

/-- The releases an interval names are those its two bounds name. -/
lemma mem_prereleasesOf_iff : r ∈ i.prereleasesOf ↔
    (∃ b ∈ i.lower, b.prereleaseOf? = some r) ∨ ∃ b ∈ i.upper, b.prereleaseOf? = some r := by
  rw [prereleasesOf, List.mem_eraseDups, List.mem_append, Option.mem_toList, Option.mem_toList,
    Option.bind_eq_some_iff, Option.bind_eq_some_iff]
  rfl

/-! ### Settling -/

/-- A bound whose release is kept stays where it is. -/
lemma settle_of_mem (h : ∀ r, b.prereleaseOf? = some r → r ∈ rs) : settle rs inclusive b = b := by
  rw [settle]
  split
  · rfl
  · next r hr => rw [if_pos (h r hr)]

/-- An optional bound whose release is kept stays where it is. -/
lemma map_settle_of_mem (h : ∀ b ∈ x, ∀ r, b.prereleaseOf? = some r → r ∈ rs) :
    x.map (settle rs inclusive) = x := by
  cases x with
  | none => rfl
  | some b => rw [Option.map_some, settle_of_mem (h b rfl)]

/-- A settled bound names the releases that it named and that are kept. -/
lemma prereleaseOf?_settle :
    (settle rs inclusive b).prereleaseOf? = some r ↔ b.prereleaseOf? = some r ∧ r ∈ rs := by
  rw [settle]
  split
  · next hb => simp [hb]
  · next q hq =>
    split
    · next hmem =>
      rw [hq, Option.some.injEq, iff_self_and]
      exact fun heq => heq ▸ hmem
    · next hmem =>
      refine iff_of_false (Bound.prereleaseOf?_ofRelease_ne q r inclusive) ?_
      rintro ⟨hb, hr⟩
      rw [Option.some.inj (hq.symm.trans hb)] at hmem
      exact hmem hr

/-- A settled bound is the bound itself, or the release of a prerelease that is not admitted. -/
lemma settle_cases (inclusive : Bool) (rs : List Release) (b : Bound) :
    settle rs inclusive b = b ∨ ∃ r ∉ rs, b.version.tier = .below r ∧
      settle rs inclusive b = ⟨.ofRelease r, inclusive⟩ := by
  rw [settle]
  split
  · exact .inl rfl
  · next r hr =>
    split
    · exact .inl rfl
    · next hmem => exact .inr ⟨r, hmem, Bound.tier_eq_below_of_prereleaseOf? hr, rfl⟩

lemma safe_of_tier (hb : b.version.Comparable) (h : b.version.tier = .below r) : r.Safe := by
  obtain ⟨-, rfl⟩ := Semver.tier_eq_below_iff.mp h
  exact hb.wellFormed.release

/-- A comparable bound settles at a comparable one. -/
lemma comparable_settle (hx : Bound.Comparable x) :
    Bound.Comparable (x.map (settle rs inclusive)) := by
  intro c hc
  obtain ⟨b, hb, rfl⟩ := Option.map_eq_some_iff.mp hc
  obtain heq | ⟨r, -, htier, heq⟩ := settle_cases inclusive rs b
  · rw [heq]
    exact hx b hb
  · rw [heq]
    exact Semver.comparable_ofRelease (safe_of_tier (hx b hb) htier)

/-! ### Normalizing once more -/

/-- Sifting keeps the whole list when each release of it is kept. -/
lemma admitted_eq_self (h : ∀ r ∈ rs, admitsPrereleaseOf r lower upper = .ok true) :
    admitted lower upper rs = .ok rs := by
  induction rs with
  | nil => rfl
  | cons r rs ih =>
    obtain ⟨hr, hrs⟩ := List.forall_mem_cons.mp h
    rw [admitted, hr, ok_bind, ih hrs, ok_bind, if_pos rfl, pure_eq_ok]

/-- If the list of releases is sifted, each of them was decided. -/
lemma exists_admitsPrereleaseOf (h : admitted lower upper allowed = .ok rs) :
    ∀ r ∈ allowed, ∃ ok, admitsPrereleaseOf r lower upper = .ok ok := by
  induction allowed generalizing rs with
  | nil => exact nofun
  | cons q allowed ih =>
    obtain ⟨ok, hok, h⟩ := bind_eq_ok.mp h
    obtain ⟨rest, hrest, -⟩ := bind_eq_ok.mp h
    exact List.forall_mem_cons.mpr ⟨⟨ok, hok⟩, ih hrest⟩

/-- A release is kept if it was allowed and a prerelease of it lies between the bounds. -/
lemma mem_admitted (h : admitted lower upper allowed = .ok rs) :
    r ∈ rs ↔ r ∈ allowed ∧ admitsPrereleaseOf r lower upper = .ok true := by
  induction allowed generalizing rs with
  | nil =>
    cases h
    simp
  | cons q allowed ih =>
    obtain ⟨ok, hok, h⟩ := bind_eq_ok.mp h
    obtain ⟨rest, hrest, h⟩ := bind_eq_ok.mp h
    cases h
    rw [List.mem_cons, or_and_right, ← ih hrest]
    cases ok with
    | true =>
      rw [if_pos rfl, List.mem_cons]
      exact or_congr_left ⟨fun heq => ⟨heq, heq ▸ hok⟩, And.left⟩
    | false =>
      rw [if_neg Bool.false_ne_true]
      refine (or_iff_right ?_).symm
      rintro ⟨rfl, hr⟩
      rw [hok] at hr
      cases hr

/-- A normal interval stays as it is. -/
theorem Normal.normalize_eq (h : i.Normal) (hrs : ∀ r, r ∈ rs ↔ r ∈ i.prereleasesOf) :
    normalize i.lower i.upper rs = .ok (some i) := by
  have hlower : i.lower.map (settle rs true) = i.lower := map_settle_of_mem fun b hb r hr =>
    (hrs r).mpr (mem_prereleasesOf_iff.mpr (.inl ⟨b, hb, hr⟩))
  have hupper : i.upper.map (settle rs false) = i.upper := map_settle_of_mem fun b hb r hr =>
    (hrs r).mpr (mem_prereleasesOf_iff.mpr (.inr ⟨b, hb, hr⟩))
  rw [normalize, admitted_eq_self fun r hr => h.prerelease r ((hrs r).mp hr), ok_bind]
  dsimp only
  rw [hlower, hupper]
  cases rs with
  | cons r rs => rfl
  | nil =>
    have hnil : i.prereleasesOf = [] :=
      List.eq_nil_iff_forall_not_mem.mpr fun r hr => nomatch (hrs r).mpr hr
    rw [h.release hnil]
    rfl

/-! ### Lowest candidates by tier -/

/-- The lowest prerelease of a release above a lower bound is one of the release, and no lower bound
of a higher tier lies below it. -/
lemma tier_of_lowestPrerelease? (hlower : Bound.Comparable lower) (hr : r.Safe)
    (h : lowestPrerelease? r lower = .ok (some w)) :
    w.Comparable ∧ w.tier = .below r ∧ ∀ b ∈ lower, b.version.tier ≤ .below r := by
  have hlowest := Semver.comparable_lowestPrerelease hr
  cases lower with
  | none =>
    cases h
    exact ⟨hlowest, rfl, nofun⟩
  | some b =>
    have hb : b.version.Comparable := hlower b rfl
    have forall_some (hle : b.version.tier ≤ .below r) :
        ∀ c ∈ some b, c.version.tier ≤ .below r := by
      rintro _ ⟨⟩
      exact hle
    rw [lowestPrerelease?] at h
    split at h
    · next hprerelease =>
      have htier := Bound.tier_eq_below_of_prereleaseOf? hprerelease
      split at h
      · cases h
        exact ⟨hb, htier, forall_some htier.le⟩
      · obtain ⟨w', hw', h⟩ := bind_eq_ok.mp h
        cases h
        obtain ⟨hp, hrelease⟩ := Semver.tier_eq_below_iff.mp htier
        obtain ⟨hw, hrelease', hprerelease'⟩ := hb.wellFormed.of_nextPrerelease hp hw'
        refine ⟨hw, Semver.tier_eq_below_iff.mpr ⟨?_, hrelease'.trans hrelease⟩,
          forall_some htier.le⟩
        simp [Semver.isPrerelease, hprerelease']
    · obtain ⟨ok, hok, h⟩ := bind_eq_ok.mp h
      split at h
      · next htrue =>
        cases h
        have hle := Bound.tier_le_of_isBelow hb hlowest (htrue ▸ hok)
        exact ⟨hlowest, rfl, forall_some hle⟩
      · cases h

/-- Settling a lower bound keeps the lowest candidate of an admitted release. -/
lemma lowestPrerelease?_settle (hlower : Bound.Comparable lower) (hr : r.Safe) (hmem : r ∈ rs)
    (h : lowestPrerelease? r lower = .ok (some w)) :
    lowestPrerelease? r (lower.map (settle rs true)) = .ok (some w) := by
  obtain ⟨-, -, hle⟩ := tier_of_lowestPrerelease? hlower hr h
  cases lower with
  | none => exact h
  | some b =>
    have hb : b.version.Comparable := hlower b rfl
    obtain heq | ⟨q, hq, htier, heq⟩ := settle_cases true rs b
    · rw [Option.map_some, heq]
      exact h
    · have hqr : q ≠ r := fun heq => hq (heq ▸ hmem)
      have hlt : q < r := by
        have hqr' : q ≤ r := Tier.below_le_below.mp (htier ▸ hle b rfl)
        exact lt_of_le_of_ne hqr' hqr
      have hne : b.prereleaseOf? ≠ some r := fun hbr => by
        have := Bound.tier_eq_below_of_prereleaseOf? hbr
        exact hqr (Tier.below_injective (htier.symm.trans this))
      have hlowest := Semver.comparable_lowestPrerelease hr
      have hbelow : Bound.isBelow ⟨.ofRelease q, true⟩ (.lowestPrerelease r) = .ok true :=
        Bound.isBelow_of_tier_lt (Semver.comparable_ofRelease (safe_of_tier hb htier)) hlowest
          (Tier.at_lt_below.mpr hlt)
      rw [lowestPrerelease?, if_neg hne] at h
      obtain ⟨ok, -, h⟩ := bind_eq_ok.mp h
      split at h
      · cases h
        rw [Option.map_some, heq, lowestPrerelease?,
          if_neg (Bound.prereleaseOf?_ofRelease_ne q r true), hbelow, ok_bind, if_pos rfl,
          pure_eq_ok]
      · cases h

/-- A version below an upper bound stands on no higher tier than the bound. -/
lemma tier_le_of_isBelowUpper (hupper : Bound.Comparable upper) (hw : w.Comparable)
    (h : isBelowUpper upper w = .ok true) : ∀ b ∈ upper, w.tier ≤ b.version.tier := by
  rintro b ⟨⟩
  exact Bound.tier_le_of_isAbove (hupper b rfl) hw h

/-- Settling an upper bound keeps prereleases below it. -/
lemma isBelowUpper_settle (hupper : Bound.Comparable upper) (hw : w.Comparable)
    (htier : w.tier = .below r) (h : isBelowUpper upper w = .ok true) :
    isBelowUpper (upper.map (settle rs false)) w = .ok true := by
  have hle := tier_le_of_isBelowUpper hupper hw h
  cases upper with
  | none => exact h
  | some b =>
    obtain heq | ⟨q, hq, hbq, heq⟩ := settle_cases false rs b
    · rw [Option.map_some, heq]
      exact h
    · have hrq : r ≤ q := by
        have := hle b rfl
        rw [htier, hbq] at this
        exact Tier.below_le_below.mp this
      rw [Option.map_some, heq]
      refine Bound.isAbove_of_tier_lt (Semver.comparable_ofRelease ?_) hw ?_
      · exact safe_of_tier (hupper b rfl) hbq
      · rw [htier]
        exact Tier.below_lt_at.mpr hrq

/-! ### What normalization returns is normal -/

/-- Each release of a list has a bound that reaches up or down to its prereleases. -/
def Backed (lower upper : Option Bound) (rs : List Release) : Prop :=
  ∀ r ∈ rs, Bound.ReachesUp lower (.below r) ∨ Bound.ReachesDown upper (.below r)

/-- An admitted release is one that a bound names. -/
lemma names_of_admits (hlower : Bound.Comparable lower) (hupper : Bound.Comparable upper)
    (hr : r.Safe) (hreaches : Bound.ReachesUp lower (.below r) ∨ Bound.ReachesDown upper (.below r))
    (hw : lowestPrerelease? r lower = .ok (some w)) (hbelow : isBelowUpper upper w = .ok true) :
    (∃ b ∈ lower, b.prereleaseOf? = some r) ∨ ∃ b ∈ upper, b.prereleaseOf? = some r := by
  obtain ⟨hwc, htier, hle⟩ := tier_of_lowestPrerelease? hlower hr hw
  have prereleaseOf?_of_tier {b : Bound} (hb : b.version.tier = .below r) :
      b.prereleaseOf? = some r := by
    rw [Bound.prereleaseOf?, Option.ite_none_right_eq_some, Option.some.injEq]
    exact Semver.tier_eq_below_iff.mp hb
  rcases hreaches with ⟨b, hb, hle'⟩ | ⟨b, hb, hle'⟩
  · exact .inl ⟨b, hb, prereleaseOf?_of_tier (le_antisymm (hle b hb) hle')⟩
  · have hge := tier_le_of_isBelowUpper hupper hwc hbelow b hb
    exact .inr ⟨b, hb, prereleaseOf?_of_tier (le_antisymm hle' (htier ▸ hge))⟩

/-- Normalization settles the bounds for the releases that are admitted. If there are none of these,
there is a release between the bounds. -/
lemma exists_of_normalize (h : normalize lower upper allowed = .ok (some k)) :
    ∃ rs, admitted lower upper allowed = .ok rs ∧
      k = ⟨lower.map (settle rs true), upper.map (settle rs false)⟩ ∧
      (rs = [] → admitsRelease k.lower k.upper = .ok true) := by
  obtain ⟨rs, hrs, h⟩ := bind_eq_ok.mp h
  refine ⟨rs, hrs, ?_⟩
  dsimp only at h
  cases rs with
  | cons r rs =>
    cases h
    exact ⟨rfl, fun hnil => absurd hnil (List.cons_ne_nil r rs)⟩
  | nil =>
    obtain ⟨ok, hok, h⟩ := bind_eq_ok.mp h
    cases ok with
    | true =>
      cases h
      exact ⟨rfl, fun _ => hok⟩
    | false => cases h

/-- A release is kept on account of a witness: its least prerelease above the lower bound. -/
lemma exists_of_mem_admitted (hrs : admitted lower upper allowed = .ok rs) (hr : r ∈ rs) :
    r ∈ allowed ∧ ∃ w, lowestPrerelease? r lower = .ok (some w) ∧
      isBelowUpper upper w = .ok true := by
  obtain ⟨hallowed, hadmits⟩ := (mem_admitted hrs).mp hr
  obtain ⟨o, hw, hbelow⟩ := bind_eq_ok.mp hadmits
  cases o with
  | none => cases hbelow
  | some w => exact ⟨hallowed, w, hw, hbelow⟩

section Settled

variable (hlower : Bound.Comparable lower) (hupper : Bound.Comparable upper)
  (hsafe : ∀ r ∈ allowed, r.Safe) (hrs : admitted lower upper allowed = .ok rs)

include hlower hupper hsafe hrs

/-- The settled bounds name the admitted releases and no others. -/
lemma mem_prereleasesOf_settled (hbacked : Backed lower upper allowed) :
    r ∈ prereleasesOf ⟨lower.map (settle rs true), upper.map (settle rs false)⟩ ↔ r ∈ rs := by
  rw [mem_prereleasesOf_iff]
  constructor
  · rintro (⟨c, hc, hcr⟩ | ⟨c, hc, hcr⟩)
    · obtain ⟨b, -, rfl⟩ := Option.map_eq_some_iff.mp hc
      exact (prereleaseOf?_settle.mp hcr).2
    · obtain ⟨b, -, rfl⟩ := Option.map_eq_some_iff.mp hc
      exact (prereleaseOf?_settle.mp hcr).2
  · intro hr
    obtain ⟨hallowed, w, hw, hbelow⟩ := exists_of_mem_admitted hrs hr
    refine (names_of_admits hlower hupper (hsafe r hallowed) (hbacked r hallowed) hw
      hbelow).imp ?_ ?_
    · rintro ⟨b, hb, hbr⟩
      exact ⟨_, Option.map_eq_some_iff.mpr ⟨b, hb, rfl⟩, prereleaseOf?_settle.mpr ⟨hbr, hr⟩⟩
    · rintro ⟨b, hb, hbr⟩
      exact ⟨_, Option.map_eq_some_iff.mpr ⟨b, hb, rfl⟩, prereleaseOf?_settle.mpr ⟨hbr, hr⟩⟩

/-- An admitted release has a prerelease between the settled bounds too. -/
lemma admitsPrereleaseOf_settled (hr : r ∈ rs) :
    admitsPrereleaseOf r (lower.map (settle rs true)) (upper.map (settle rs false)) =
      .ok true := by
  obtain ⟨hallowed, w, hw, hbelow⟩ := exists_of_mem_admitted hrs hr
  obtain ⟨hwc, htier, -⟩ := tier_of_lowestPrerelease? hlower (hsafe r hallowed) hw
  rw [admitsPrereleaseOf, lowestPrerelease?_settle hlower (hsafe r hallowed) hr hw, ok_bind]
  exact isBelowUpper_settle hupper hwc htier hbelow

end Settled

/-- What normalization returns is normal. -/
theorem normal_of_normalize (hlower : Bound.Comparable lower) (hupper : Bound.Comparable upper)
    (hsafe : ∀ r ∈ allowed, r.Safe) (hbacked : Backed lower upper allowed)
    (h : normalize lower upper allowed = .ok (some k)) : k.Comparable ∧ k.Normal := by
  obtain ⟨rs, hrs, rfl, hrelease⟩ := exists_of_normalize h
  have hnames (r : Release) := mem_prereleasesOf_settled (r := r) hlower hupper hsafe hrs hbacked
  refine ⟨⟨comparable_settle hlower, comparable_settle hupper⟩, ?_, ?_⟩
  · exact fun r hr => admitsPrereleaseOf_settled hlower hupper hsafe hrs ((hnames r).mp hr)
  · intro hnil
    refine hrelease (List.eq_nil_iff_forall_not_mem.mpr fun r hr => ?_)
    have hmem := (hnames r).mpr hr
    rw [hnil] at hmem
    cases hmem

/-! ### Intersections and alternatives -/

/-- A release that an interval names has a bound at the tier of its prereleases. -/
lemma reaches_of_mem (h : r ∈ i.prereleasesOf) :
    Bound.ReachesUp i.lower (.below r) ∨ Bound.ReachesDown i.upper (.below r) := by
  rcases mem_prereleasesOf_iff.mp h with ⟨b, hb, hr⟩ | ⟨b, hb, hr⟩
  · exact .inl ⟨b, hb, (Bound.tier_eq_below_of_prereleaseOf? hr).ge⟩
  · exact .inr ⟨b, hb, (Bound.tier_eq_below_of_prereleaseOf? hr).le⟩

/-- Each release that a comparable interval names has numbers small enough to be exact. -/
lemma Comparable.safe_of_mem (hi : i.Comparable) (h : r ∈ i.prereleasesOf) : r.Safe := by
  rcases mem_prereleasesOf_iff.mp h with ⟨b, hb, hr⟩ | ⟨b, hb, hr⟩
  · exact safe_of_tier (hi.lower b hb) (Bound.tier_eq_below_of_prereleaseOf? hr)
  · exact safe_of_tier (hi.upper b hb) (Bound.tier_eq_below_of_prereleaseOf? hr)

lemma comparable_of_eq_or {x y z : Option Bound} (hx : Bound.Comparable x)
    (hy : Bound.Comparable y) (h : z = x ∨ z = y) : Bound.Comparable z := by
  rcases h with rfl | rfl
  · exact hx
  · exact hy

/-- Intersections are normal. -/
theorem normal_of_intersect (hi : i.Comparable) (hj : j.Comparable)
    (h : i.intersect j = .ok (some k)) : k.Comparable ∧ k.Normal := by
  obtain ⟨lower, hlower, h⟩ := bind_eq_ok.mp h
  obtain ⟨upper, hupper, h⟩ := bind_eq_ok.mp h
  obtain ⟨hlower', hup⟩ := Bound.tighterLower_reaches hi.lower hj.lower hlower
  obtain ⟨hupper', hdown⟩ := Bound.tighterUpper_reaches hi.upper hj.upper hupper
  refine normal_of_normalize (comparable_of_eq_or hi.lower hj.lower hlower')
    (comparable_of_eq_or hi.upper hj.upper hupper') ?_ ?_ h
  · exact fun r hr => hi.safe_of_mem (List.mem_filter.mp hr).1
  · intro r hr
    exact (reaches_of_mem (List.mem_filter.mp hr).1).imp (fun hr => hup _ (.inl hr))
      fun hr => hdown _ (.inl hr)

end Interval

def Comparator.Comparable : Comparator → Prop
  | .any         => True
  | .bounded _ v => v.Comparable

namespace Comparator

variable {c : Comparator} {r : Release}

lemma Regular.comparable (h : c.Regular) : c.Comparable := by
  cases c with
  | any => trivial
  | bounded o v => exact Semver.Regular.toComparable h

lemma Comparable.lower (h : c.Comparable) : Bound.Comparable c.lower? := by
  cases c with
  | any => exact Bound.comparable_none
  | bounded o w =>
    cases o with
    | equal | atLeast | above => exact Bound.comparable_some.mpr h
    | below | atMost => exact Bound.comparable_none

lemma Comparable.upper (h : c.Comparable) : Bound.Comparable c.upper? := by
  cases c with
  | any => exact Bound.comparable_none
  | bounded o w =>
    cases o with
    | equal | atMost | below => exact Bound.comparable_some.mpr h
    | above | atLeast => exact Bound.comparable_none

lemma Comparable.safe (h : c.Comparable) (hr : c.prereleaseOf? = some r) : r.Safe := by
  cases c with
  | any => cases hr
  | bounded o w =>
    obtain ⟨-, rfl⟩ := prereleaseOf?_bounded.mp hr
    exact h.wellFormed.release

/-- A comparator that is a prerelease has a bound at its tier. -/
lemma reaches_of_prereleaseOf? (h : c.prereleaseOf? = some r) :
    Bound.ReachesUp c.lower? (.below r) ∨ Bound.ReachesDown c.upper? (.below r) := by
  cases c with
  | any => cases h
  | bounded o w =>
    have htier : w.tier = .below r := Semver.tier_eq_below_iff.mpr (prereleaseOf?_bounded.mp h)
    cases o with
    | equal | above | atLeast => exact .inl (Bound.reachesUp_some.mpr htier.ge)
    | below | atMost => exact .inr (Bound.reachesDown_some.mpr htier.le)

end Comparator

namespace Interval

variable {i j k : Interval} {a cs : List Comparator} {c : Comparator}

/-- What holds of the bounds that some comparators tighten two bounds to. -/
structure Tightened (i : Interval) (cs : List Comparator) (j : Interval) : Prop where
  lower_mem : j.lower = i.lower ∨ ∃ c ∈ cs, j.lower = c.lower?
  upper_mem : j.upper = i.upper ∨ ∃ c ∈ cs, j.upper = c.upper?
  lower_within : ∀ t, Bound.ReachesUp i.lower t → Bound.ReachesUp j.lower t
  upper_within : ∀ t, Bound.ReachesDown i.upper t → Bound.ReachesDown j.upper t
  lower_reaches : ∀ c ∈ cs, ∀ t, Bound.ReachesUp c.lower? t → Bound.ReachesUp j.lower t
  upper_reaches : ∀ c ∈ cs, ∀ t, Bound.ReachesDown c.upper? t → Bound.ReachesDown j.upper t

/-- Tightening by comparable comparators keeps an interval comparable. -/
lemma Tightened.comparable (h : Tightened i cs j) (hi : i.Comparable)
    (hcs : ∀ c ∈ cs, c.Comparable) : j.Comparable := by
  constructor
  · rcases h.lower_mem with heq | ⟨c, hc, heq⟩
    · exact heq ▸ hi.lower
    · exact heq ▸ (hcs c hc).lower
  · rcases h.upper_mem with heq | ⟨c, hc, heq⟩
    · exact heq ▸ hi.upper
    · exact heq ▸ (hcs c hc).upper

/-- What the fold over the comparators returns is the interval tightened by all of them. -/
lemma tightened_of_tightenAll (hi : i.Comparable) (hcs : ∀ c ∈ cs, c.Comparable)
    (h : i.tightenAll cs = .ok j) : Tightened i cs j := by
  induction cs generalizing i with
  | nil =>
    cases h
    exact ⟨.inl rfl, .inl rfl, fun t ht => ht, fun t ht => ht, nofun, nofun⟩
  | cons c cs ih =>
    obtain ⟨hc, hcs⟩ := List.forall_mem_cons.mp hcs
    obtain ⟨i', hi', h⟩ := bind_eq_ok.mp h
    rw [tighten_eq] at hi'
    obtain ⟨lower, hlower, hi'⟩ := bind_eq_ok.mp hi'
    obtain ⟨upper, hupper, hi'⟩ := bind_eq_ok.mp hi'
    cases hi'
    obtain ⟨hlower', hup⟩ := Bound.tighterLower_reaches hi.lower hc.lower hlower
    obtain ⟨hupper', hdown⟩ := Bound.tighterUpper_reaches hi.upper hc.upper hupper
    have htail := ih ⟨comparable_of_eq_or hi.lower hc.lower hlower',
      comparable_of_eq_or hi.upper hc.upper hupper'⟩ hcs h
    constructor
    · rcases htail.lower_mem with heq | ⟨d, hd, heq⟩
      · exact hlower'.imp heq.trans fun hl => ⟨c, List.mem_cons_self, heq.trans hl⟩
      · exact .inr ⟨d, List.mem_cons_of_mem c hd, heq⟩
    · rcases htail.upper_mem with heq | ⟨d, hd, heq⟩
      · exact hupper'.imp heq.trans fun hu => ⟨c, List.mem_cons_self, heq.trans hu⟩
      · exact .inr ⟨d, List.mem_cons_of_mem c hd, heq⟩
    · exact fun t ht => htail.lower_within t (hup t (.inl ht))
    · exact fun t ht => htail.upper_within t (hdown t (.inl ht))
    · exact List.forall_mem_cons.mpr
        ⟨fun t ht => htail.lower_within t (hup t (.inr ht)), htail.lower_reaches⟩
    · exact List.forall_mem_cons.mpr
        ⟨fun t ht => htail.upper_within t (hdown t (.inr ht)), htail.upper_reaches⟩

/-- The interval of an alternative is normal. -/
theorem normal_of_ofAlternative {a : Alternative} (ha : ∀ c ∈ a, c.Comparable)
    (h : ofAlternative a = .ok (some k)) : k.Comparable ∧ k.Normal := by
  obtain ⟨j, hj, h⟩ := bind_eq_ok.mp h
  have hnone : Comparable ⟨none, none⟩ := ⟨Bound.comparable_none, Bound.comparable_none⟩
  have htightened := tightened_of_tightenAll hnone ha hj
  have hcomparable := htightened.comparable hnone ha
  refine normal_of_normalize hcomparable.lower hcomparable.upper ?_ ?_ h
  · intro r hr
    obtain ⟨c, hc, hcr⟩ := mem_prereleasesOfComparators.mp hr
    exact (ha c hc).safe hcr
  · intro r hr
    obtain ⟨c, hc, hcr⟩ := mem_prereleasesOfComparators.mp hr
    exact (Comparator.reaches_of_prereleaseOf? hcr).imp (htightened.lower_reaches c hc _)
      (htightened.upper_reaches c hc _)

/-! ### The interval of one version -/

lemma comparable_exact {v : Semver} (hv : v.Comparable) : (exact v).Comparable :=
  ⟨Bound.comparable_some.mpr hv, Bound.comparable_some.mpr hv⟩

lemma regular_exact {v : Semver} (hv : v.Regular) : (exact v).Regular :=
  ⟨Bound.regular_some.mpr hv, Bound.regular_some.mpr hv⟩

/-- The interval of one version is normal. -/
lemma normal_exact {v : Semver} (hv : v.Comparable) : (exact v).Normal := by
  have hbelow : isBelowUpper (some ⟨v, true⟩) v = .ok true := by
    rw [isBelowUpper, Bound.isAbove, hv.compare_eq hv, Semver.order_self, ok_bind, pure_eq_ok]
  constructor
  · intro r hr
    have hprerelease : Bound.prereleaseOf? ⟨v, true⟩ = some r := by
      rcases mem_prereleasesOf_iff.mp hr with ⟨_, ⟨⟩, hb⟩ | ⟨_, ⟨⟩, hb⟩
      · exact hb
      · exact hb
    rw [admitsPrereleaseOf, exact, lowestPrerelease?, if_pos hprerelease]
    exact hbelow
  · intro hnil
    have hrelease : v.isPrerelease = false := by
      rw [← Bool.not_eq_true]
      intro hp
      have hmem : v.release ∈ (exact v).prereleasesOf :=
        mem_prereleasesOf_iff.mpr (.inl ⟨_, rfl, if_pos hp⟩)
      rw [hnil] at hmem
      cases hmem
    rw [admitsRelease, exact, lowestRelease, hrelease]
    exact hbelow

/-! ### Normal intervals with regular bounds -/

/-- A normal interval with regular bounds contains an ordinary version. -/
lemma Normal.exists_holds (h : k.Normal) (hk : k.Regular) :
    ∃ w : Semver, w.Ordinary ∧ k.span.Holds w.precedence := by
  have hbacked : Span.Backed (Bound.lowerCut? k.lower) (Bound.upperCut? k.upper)
      { r | r ∈ k.prereleasesOf } := by
    intro r hr
    rcases mem_prereleasesOf.mp hr with hzone | hzone
    · exact ⟨_, hzone, .inl le_rfl⟩
    · exact ⟨_, hzone, .inr le_rfl⟩
  have hspec := normalize_spec hk.lower hk.upper (fun r hr => hk.safe_of_mem hr) hbacked
    (h.normalize_eq fun r => Iff.rfl)
  obtain ⟨-, hspan, w, hw, hholds⟩ := hspec
  obtain ⟨w', hw', hplace⟩ := hw.exists_ordinary_at
  exact ⟨w', hw', by rw [hspan, hplace]; exact hholds⟩

end Interval

end VersionConstraints
