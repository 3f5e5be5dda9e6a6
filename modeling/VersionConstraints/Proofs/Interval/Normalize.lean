import VersionConstraints.Interval.Normalize
import VersionConstraints.Proofs.Interval.Meaning

/-!
# Normalization trims

The lowest candidates are the least versions above a lower bound, so a test of them against the
upper bound tells whether there is any version between the two. Normalization therefore trims: what
it returns has the trimmed span, and it returns nothing when that span holds nothing.
-/

namespace VersionConstraints

namespace Interval

variable {lower upper : Option Bound} {r : Release} {i j : Interval}

/-! ### Lowest candidates -/

/-- A version is at the least of the places with a property that are above a cut. -/
structure IsLeastAbove (c : Cut) (P : Precedence → Prop) (w : Semver) : Prop where
  regular : w.Regular
  holds : P w.precedence
  le_iff : ∀ p, P p → (c ≤ .before p ↔ w.precedence ≤ p)

/-- A version is at the least of the places with a property that are above a cut, or there are no
such places. -/
def IsLeastAbove? (c : Cut) (P : Precedence → Prop) : Option Semver → Prop
  | some w => IsLeastAbove c P w
  | none   => ∀ p, P p → ¬ c ≤ .before p

section IsLeastAbove

variable {b : Bound} {w : Semver} {P : Precedence → Prop}

/-- With no lower bound, the least prerelease of a release is the first of its zone. -/
lemma isLeastAbove_lowestPrerelease (hr : r.Safe) :
    IsLeastAbove ⊥ (.before · ∈ Cut.zone r) (Semver.lowestPrerelease r) := by
  refine ⟨(Semver.ordinary_lowestPrerelease hr).regular,
    Cut.beside_precedence_mem_zone.mpr ⟨rfl, rfl⟩, fun p hp => iff_of_true bot_le ?_⟩
  rw [Semver.precedence_lowestPrerelease]
  exact Cut.before_le_before.mp hp.1

/-- Above an included bound, the bound's own version is the least. -/
lemma isLeastAbove_inclusive (hb : b.version.Regular) (hinclusive : b.inclusive = true)
    (hP : P b.version.precedence) : IsLeastAbove b.lowerCut P b.version := by
  refine ⟨hb, hP, ?_⟩
  intro p _
  rw [Bound.lowerCut, hinclusive]
  exact Cut.before_le_before

/-- Above an excluded prerelease, the next one is the least of the zone. -/
lemma isLeastAbove_nextPrerelease (hb : b.version.Regular) (hexclusive : b.inclusive = false)
    (hp : b.version.isPrerelease = true) (hw : b.version.nextPrerelease = .ok w) :
    IsLeastAbove b.lowerCut (.before · ∈ Cut.zone b.version.release) w := by
  obtain ⟨hregular, hrelease, hprerelease⟩ := hb.of_nextPrerelease hp hw
  refine ⟨hregular, Cut.beside_precedence_mem_zone.mpr ⟨?_, hrelease⟩, fun p _ => ?_⟩
  · simp [Semver.isPrerelease, hprerelease]
  · rw [Bound.lowerCut, hexclusive, hb.precedence_nextPrerelease hp hw]
    exact Cut.behind_le_before

/-- Above an excluded release, the next patch is the least release. -/
lemma isLeastAbove_nextPatch (hb : b.version.Regular) (hexclusive : b.inclusive = false)
    (hp : b.version.isPrerelease = false) (hw : Semver.nextPatch b.version.release = .ok w) :
    IsLeastAbove b.lowerCut (· ∈ Set.range Precedence.ofRelease) w := by
  obtain ⟨rfl, hpatch⟩ := Semver.eq_of_nextPatch hw
  have hsafe : Release.Safe { b.version.release with patch := b.version.release.patch + 1 } :=
    ⟨hb.wellFormed.release.major_le, hb.wellFormed.release.minor_le, hpatch⟩
  refine ⟨(Semver.ordinary_ofRelease hsafe).regular,
    ⟨_, (Semver.precedence_ofRelease _).symm⟩, ?_⟩
  rintro _ ⟨s, rfl⟩
  rw [Bound.lowerCut, hexclusive, Semver.precedence_nextPatch hw,
    Semver.precedence_of_not_isPrerelease hp]
  exact Cut.behind_le_before

/-- Above a prerelease, the release it leads to is the least release. -/
lemma isLeastAbove_ofRelease (hb : b.version.Regular) (hp : b.version.isPrerelease = true) :
    IsLeastAbove b.lowerCut (· ∈ Set.range Precedence.ofRelease)
      (Semver.ofRelease b.version.release) := by
  refine ⟨(Semver.ordinary_ofRelease hb.wellFormed.release).regular,
    ⟨_, (Semver.precedence_ofRelease _).symm⟩, ?_⟩
  rintro _ ⟨s, rfl⟩
  have hzone : b.lowerCut ∈ Cut.zone b.version.release :=
    Cut.beside_precedence_mem_zone.mpr ⟨hp, rfl⟩
  rw [Semver.precedence_ofRelease]
  constructor
  · intro hle
    by_contra hlt
    have hrelease := Precedence.ofRelease_lt_ofRelease.mp (not_le.mp hlt)
    have hbefore := Cut.before_lt_before.mpr (Precedence.ofRelease_lt_lowest.mpr hrelease)
    exact (hle.trans_lt hbefore).not_ge hzone.1
  · intro hle
    exact hzone.2.le.trans (Cut.before_le_before.mpr hle)

end IsLeastAbove

/-- The search for a prerelease of a release finds the least above the bound, or none when there is
none. -/
lemma lowestPrerelease?_spec (hlower : Bound.Regular lower) (hr : r.Safe) {o : Option Semver}
    (h : lowestPrerelease? r lower = .ok o) :
    IsLeastAbove? (Bound.lowerCut? lower) (.before · ∈ Cut.zone r) o := by
  have hlowest := isLeastAbove_lowestPrerelease hr
  cases lower with
  | none =>
    cases h
    exact hlowest
  | some b =>
    have hb : b.version.Regular := hlower b rfl
    rw [lowestPrerelease?] at h
    split at h
    · next hprerelease =>
      obtain ⟨hp, rfl⟩ := Bound.prereleaseOf?_eq_some.mp hprerelease
      cases hinclusive : b.inclusive with
      | true =>
        rw [hinclusive, if_pos rfl] at h
        cases h
        exact isLeastAbove_inclusive hb hinclusive (Bound.beside_mem_zone.mpr hprerelease)
      | false =>
        rw [hinclusive, if_neg Bool.false_ne_true] at h
        obtain ⟨w, hw, heq⟩ := bind_eq_ok.mp h
        cases heq
        exact isLeastAbove_nextPrerelease hb hinclusive hp hw
    · next hprerelease =>
      obtain ⟨below, hbelow, h⟩ := bind_eq_ok.mp h
      have hspec := (Bound.isBelow_spec hb hlowest.regular.toComparable).of_eq_ok hbelow
      cases below with
      | true =>
        cases h
        refine ⟨hlowest.regular, hlowest.holds, ?_⟩
        intro p hp
        have hle := (hlowest.le_iff p hp).mp bot_le
        exact iff_of_true ((hspec.mp rfl).trans (Cut.before_le_before.mpr hle)) hle
      | false =>
        cases h
        intro p hp hcut
        have hlt := not_le.mp fun hle => nomatch hspec.mpr hle
        have hzone : b.lowerCut ∈ Cut.zone r :=
          ⟨hlowest.holds.1.trans hlt.le, hcut.trans_lt hp.2⟩
        exact hprerelease (Bound.beside_mem_zone.mp hzone)

/-- The search for a release finds the least above the bound. -/
lemma lowestRelease_spec (hlower : Bound.Regular lower) {w : Semver}
    (h : lowestRelease lower = .ok w) :
    IsLeastAbove (Bound.lowerCut? lower) (· ∈ Set.range Precedence.ofRelease) w := by
  cases lower with
  | none =>
    cases h
    refine ⟨(Semver.ordinary_ofRelease (by decide)).regular,
      ⟨_, (Semver.precedence_ofRelease _).symm⟩, ?_⟩
    rintro _ ⟨s, rfl⟩
    exact iff_of_true bot_le (Precedence.ofRelease_le_ofRelease.mpr s.zero_le)
  | some b =>
    have hb : b.version.Regular := hlower b rfl
    rw [lowestRelease] at h
    cases hp : b.version.isPrerelease with
    | true =>
      rw [hp, if_pos rfl] at h
      cases h
      exact isLeastAbove_ofRelease hb hp
    | false =>
      rw [hp, if_neg Bool.false_ne_true] at h
      cases hinclusive : b.inclusive with
      | true =>
        rw [hinclusive, if_pos rfl] at h
        cases h
        exact isLeastAbove_inclusive hb hinclusive
          ⟨b.version.release, (Semver.precedence_of_not_isPrerelease hp).symm⟩
      | false =>
        rw [hinclusive, if_neg Bool.false_ne_true] at h
        exact isLeastAbove_nextPatch hb hinclusive hp h

/-! ### Emptiness -/

/-- A test tells whether there is a place with a property; when there is, a regular version is at
one. -/
structure Detects (found : Bool) (P : Precedence → Prop) : Prop where
  exists_of_true : found = true → ∃ w : Semver, w.Regular ∧ P w.precedence
  not_of_false : found = false → ∀ p, ¬ P p

/-- A test that detects a property answers whether some precedence has it. -/
lemma Detects.iff {found : Bool} {P : Precedence → Prop} (h : Detects found P) :
    found = true ↔ ∃ p, P p := by
  constructor
  · intro hfound
    obtain ⟨w, -, hw⟩ := h.exists_of_true hfound
    exact ⟨w.precedence, hw⟩
  · rintro ⟨p, hp⟩
    by_contra hfound
    exact h.not_of_false (by simpa using hfound) p hp

/-- Below an upper bound there is the least of the places above a lower one, or none of them. -/
lemma IsLeastAbove.detects {c : Cut} {P : Precedence → Prop} {w : Semver}
    (h : IsLeastAbove c P w) {found : Bool}
    (hfound : found = true ↔ .before w.precedence < Bound.upperCut? upper) :
    Detects found fun p => P p ∧ Span.Between c (Bound.upperCut? upper) p where
  exists_of_true htrue :=
    ⟨w, h.regular, h.holds, (h.le_iff _ h.holds).mpr le_rfl, hfound.mp htrue⟩
  not_of_false hfalse := by
    rintro p ⟨hp, hlower, hupper⟩
    have hle := Cut.before_le_before.mpr ((h.le_iff p hp).mp hlower)
    rw [hfound.mpr (hle.trans_lt hupper)] at hfalse
    cases hfalse

/-- A release keeps its prereleases exactly when one of them lies between the bounds. -/
lemma admitsPrereleaseOf_spec (hlower : Bound.Regular lower) (hupper : Bound.Regular upper)
    (hr : r.Safe) {found : Bool} (h : admitsPrereleaseOf r lower upper = .ok found) :
    Detects found fun p => .before p ∈ Cut.zone r ∧
      Span.Between (Bound.lowerCut? lower) (Bound.upperCut? upper) p := by
  obtain ⟨o, ho, h⟩ := bind_eq_ok.mp h
  have hleast := lowestPrerelease?_spec hlower hr ho
  cases o with
  | none =>
    cases h
    exact ⟨nofun, fun _ p ⟨hp, hbetween⟩ => hleast p hp hbetween.1⟩
  | some w =>
    exact hleast.detects ((isBelowUpper_spec hupper hleast.regular.toComparable).of_eq_ok h)

/-- The interval keeps its releases exactly when one of them lies between the bounds. -/
lemma admitsRelease_spec (hlower : Bound.Regular lower) (hupper : Bound.Regular upper)
    {found : Bool} (h : admitsRelease lower upper = .ok found) :
    Detects found fun p => p ∈ Set.range Precedence.ofRelease ∧
      Span.Between (Bound.lowerCut? lower) (Bound.upperCut? upper) p := by
  obtain ⟨w, hw, h⟩ := bind_eq_ok.mp h
  have hleast := lowestRelease_spec hlower hw
  exact hleast.detects ((isBelowUpper_spec hupper hleast.regular.toComparable).of_eq_ok h)

/-! ### Admitted releases -/

/-- The places of the prereleases of a release between two bounds. -/
def prereleasesBetween (lower upper : Option Bound) (r : Release) : Set Precedence :=
  { p | .before p ∈ Cut.zone r ∧
    Span.Between (Bound.lowerCut? lower) (Bound.upperCut? upper) p }

/-- Sifting keeps the allowed releases that have a prerelease between the bounds. -/
lemma admitted_spec (hlower : Bound.Regular lower) (hupper : Bound.Regular upper)
    {rs rs' : List Release} (hrs : ∀ r ∈ rs, r.Safe) (h : admitted lower upper rs = .ok rs') :
    (∀ r, r ∈ rs' ↔ r ∈ rs ∧ (prereleasesBetween lower upper r).Nonempty) ∧
      ∀ r ∈ rs', ∃ w : Semver, w.Regular ∧ w.precedence ∈ prereleasesBetween lower upper r := by
  induction rs generalizing rs' with
  | nil =>
    cases h
    exact ⟨fun r => by simp, nofun⟩
  | cons r rs ih =>
    obtain ⟨found, hfound, h⟩ := bind_eq_ok.mp h
    obtain ⟨rest, hrest, h⟩ := bind_eq_ok.mp h
    cases h
    obtain ⟨hr, hrs⟩ := List.forall_mem_cons.mp hrs
    obtain ⟨hmem, hexists⟩ := ih hrs hrest
    have hdetects := admitsPrereleaseOf_spec hlower hupper hr hfound
    cases found with
    | true =>
      have hnonempty : (prereleasesBetween lower upper r).Nonempty := hdetects.iff.mp rfl
      refine ⟨fun q => ?_, List.forall_mem_cons.mpr ⟨hdetects.exists_of_true rfl, hexists⟩⟩
      rw [if_pos rfl, List.mem_cons, List.mem_cons, hmem, or_and_right]
      exact or_congr_left ⟨fun heq => ⟨heq, heq ▸ hnonempty⟩, And.left⟩
    | false =>
      have hempty : ¬ (prereleasesBetween lower upper r).Nonempty := fun ⟨p, hp⟩ =>
        hdetects.not_of_false rfl p hp
      refine ⟨fun q => ?_, hexists⟩
      rw [if_neg Bool.false_ne_true, hmem, List.mem_cons, or_and_right]
      exact (or_iff_right fun ⟨heq, hq⟩ => hempty (heq ▸ hq)).symm

/-! ### Settled bounds -/

/-- The cut of a bound is settled by the release that the bound names. -/
lemma cut_settle (rs : List Release) (b : Bound) (x : Bool) :
    Cut.settle { r | r ∈ rs } (.beside b.version.precedence x) =
      match b.prereleaseOf? with
      | none   => .beside b.version.precedence x
      | some r => if r ∈ rs then .beside b.version.precedence x else .before (.ofRelease r) := by
  cases hb : b.prereleaseOf? with
  | none =>
    apply Cut.settle_of_settled
    intro r hr
    rw [Bound.beside_mem_zone, hb] at hr
    cases hr
  | some r =>
    have hr : .beside b.version.precedence x ∈ Cut.zone r := Bound.beside_mem_zone.mpr hb
    dsimp only
    split
    · next hmem => exact Cut.settle_of_settled fun q hq => Cut.eq_of_mem_zone hr hq ▸ hmem
    · next hmem => exact Cut.settle_of_mem_zone hmem hr

/-- The lower cut of a settled bound is the bound's lower cut, settled. -/
lemma lowerCut_settle (rs : List Release) (b : Bound) :
    (settle rs true b).lowerCut = Cut.settle { r | r ∈ rs } b.lowerCut := by
  rw [Bound.lowerCut, Bound.lowerCut, cut_settle, settle]
  cases b.prereleaseOf? with
  | none => rfl
  | some r =>
    dsimp only
    split <;> rfl

/-- The upper cut of a settled bound is the bound's upper cut, settled. -/
lemma upperCut_settle (rs : List Release) (b : Bound) :
    (settle rs false b).upperCut = Cut.settle { r | r ∈ rs } b.upperCut := by
  rw [Bound.upperCut, Bound.upperCut, cut_settle, settle]
  cases b.prereleaseOf? with
  | none => rfl
  | some r =>
    dsimp only
    split <;> rfl

lemma lowerCut?_settle (rs : List Release) (x : Option Bound) :
    Bound.lowerCut? (x.map (settle rs true)) =
      Cut.settle { r | r ∈ rs } (Bound.lowerCut? x) := by
  cases x with
  | none => exact (Cut.settle_of_settled fun r hr => absurd hr Cut.bot_not_mem_zone).symm
  | some b => exact lowerCut_settle rs b

lemma upperCut?_settle (rs : List Release) (x : Option Bound) :
    Bound.upperCut? (x.map (settle rs false)) =
      Cut.settle { r | r ∈ rs } (Bound.upperCut? x) := by
  cases x with
  | none => exact (Cut.settle_of_settled fun r hr => absurd hr Cut.top_not_mem_zone).symm
  | some b => exact upperCut_settle rs b

/-- A regular bound settles at a regular one. -/
lemma regular_settle {x : Option Bound} (hx : Bound.Regular x) (rs : List Release)
    (inclusive : Bool) : Bound.Regular (x.map (settle rs inclusive)) := by
  intro c hc
  obtain ⟨b, hb, rfl⟩ := Option.map_eq_some_iff.mp hc
  have hregular := hx b hb
  simp only [settle]
  split
  · exact hregular
  · next r hr =>
    split
    · exact hregular
    · exact (Semver.ordinary_ofRelease (Bound.safe_of_prereleaseOf? hregular hr)).regular

/-! ### Normalization -/

/-- An optional interval has a span and a regular version in it, or the span holds nothing. -/
def Realizes (s : Span) : Option Interval → Prop
  | some k => k.Regular ∧ k.span = s ∧ ∃ w : Semver, w.Regular ∧ s.Holds w.precedence
  | none   => ∀ p, ¬ s.Holds p

/-- Normalization trims. -/
theorem normalize_spec (hlower : Bound.Regular lower) (hupper : Bound.Regular upper)
    {allowed : List Release} (hallowed : ∀ r ∈ allowed, r.Safe)
    (hbacked : Span.Backed (Bound.lowerCut? lower) (Bound.upperCut? upper) { r | r ∈ allowed })
    {o : Option Interval} (h : normalize lower upper allowed = .ok o) :
    Realizes (.trim (Bound.lowerCut? lower) (Bound.upperCut? upper) { r | r ∈ allowed }) o := by
  obtain ⟨rs, hrs, h⟩ := bind_eq_ok.mp h
  obtain ⟨hmem, hexists⟩ := admitted_spec hlower hupper hallowed hrs
  have hpopulated : Span.populated (Bound.lowerCut? lower) (Bound.upperCut? upper)
      { r | r ∈ allowed } = { r | r ∈ rs } := (Set.ext hmem).symm
  set k : Interval := ⟨lower.map (settle rs true), upper.map (settle rs false)⟩ with hk
  have hregular : k.Regular := ⟨regular_settle hlower rs true, regular_settle hupper rs false⟩
  have hspan : k.span = .trim (Bound.lowerCut? lower) (Bound.upperCut? upper) { r | r ∈ allowed } := by
    rw [Span.trim, hpopulated, ← lowerCut?_settle, ← upperCut?_settle]
    rfl
  cases rs with
  | cons r rs =>
    cases h
    obtain ⟨w, hw, hzone, hbetween⟩ := hexists r List.mem_cons_self
    refine ⟨hregular, hspan, w, hw, (Span.holds_trim hbacked).mpr ⟨hbetween, ?_⟩⟩
    intro q hq
    rw [← Cut.eq_of_mem_zone hzone hq]
    exact ((hmem r).mp List.mem_cons_self).1
  | nil =>
    obtain ⟨found, hfound, h⟩ := bind_eq_ok.mp h
    have hdetects := admitsRelease_spec hregular.lower hregular.upper hfound
    cases found with
    | true =>
      cases h
      obtain ⟨w, hw, hrelease, hbetween⟩ := hdetects.exists_of_true rfl
      obtain ⟨s, hs⟩ := hrelease
      refine ⟨hregular, hspan, w, hw, ?_⟩
      rw [← hspan]
      refine ⟨hbetween, ?_⟩
      intro q hq
      rw [← hs] at hq
      exact absurd hq Cut.before_ofRelease_not_mem_zone
    | false =>
      cases h
      intro p hp
      rcases p.eq_ofRelease_or_exists with heq | hprerelease
      · rw [← hspan] at hp
        exact hdetects.not_of_false rfl p ⟨⟨_, heq.symm⟩, hp.1⟩
      · have hr := Span.mem_of_names_trim (hp.2 _ (Cut.beside_mem_zone.mpr hprerelease))
        rw [hpopulated] at hr
        cases hr

/-- The intersection of two intervals realizes the meet of their spans. -/
theorem intersect_spec (hi : i.Regular) (hj : j.Regular) {o : Option Interval}
    (h : i.intersect j = .ok o) : Realizes (i.span.meet j.span) o := by
  obtain ⟨lower, hlower, h⟩ := bind_eq_ok.mp h
  obtain ⟨upper, hupper, h⟩ := bind_eq_ok.mp h
  obtain ⟨hlower, hmax⟩ := (Bound.tighterLower_spec hi.lower hj.lower).of_eq_ok hlower
  obtain ⟨hupper, hmin⟩ := (Bound.tighterUpper_spec hi.upper hj.upper).of_eq_ok hupper
  have hcommon : { r | r ∈ i.prereleasesOf.filter (· ∈ j.prereleasesOf) } =
      Span.common i.span j.span := by
    ext r
    simp [Span.common, mem_prereleasesOf]
  have hsafe : ∀ r ∈ i.prereleasesOf.filter (· ∈ j.prereleasesOf), r.Safe := fun r hr =>
    hi.safe_of_mem (List.mem_filter.mp hr).1
  have hspec := normalize_spec hlower hupper hsafe
    (by rw [hmax, hmin, hcommon]; exact Span.backed_common) h
  rw [hmax, hmin, hcommon] at hspec
  exact hspec

end Interval

end VersionConstraints
