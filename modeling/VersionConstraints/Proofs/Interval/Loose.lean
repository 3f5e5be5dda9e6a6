import VersionConstraints.Proofs.Interval.Limits
import VersionConstraints.Proofs.Interval.Read

/-!
# Bounds that cannot be compared

The loose grammar reads versions whose canonical text is no strict version, and no comparison with
such a version returns. Normalization compares the upper bound with a prerelease of its release, so
it lets such a version stay only as an inclusive lower bound without an upper one. An interval of
this kind can still be intersected with one that has no lower bound and no prerelease of the same
release, because then the release takes the place of the version.
-/

namespace VersionConstraints

namespace Semver

variable {v w : Semver} {o : Ordering}

def Read (v : Semver) : Prop :=
  ∃ g t, ofText g t = .ok v

lemma Read.wellFormed (h : v.Read) : v.WellFormed := by
  obtain ⟨g, t, ht⟩ := h
  exact wellFormed_of_ofText ht

/-- A version that was read can be compared if its canonical text is a strict version. -/
lemma Read.comparable_of_text (h : v.Read) (hlen : v.text.length ≤ maxUnits)
    (hids : ∀ a ∈ v.prerelease, Grammar.strict.isIdentifier a.text = true) : v.Comparable := by
  refine ⟨h, ?_⟩
  rw [strictly]
  cases v.grammar with
  | strict => exact ⟨v, rfl⟩
  | loose => exact ⟨_, h.wellFormed.ofText_text_of_all hlen hids⟩

/-- Only prereleases cannot be compared. -/
lemma Read.isPrerelease_of_not_comparable (h : v.Read) (hne : ¬ v.Comparable) :
    v.isPrerelease = true := by
  by_contra hp
  have hnil : v.prerelease = [] := by simpa [isPrerelease] using hp
  refine hne (h.comparable_of_text ?_ ?_)
  · have htext : v.text = v.release.text := by simp [text, isPrerelease, hnil]
    rw [htext]
    exact (length_text_le h.wellFormed.release).trans (by decide)
  · rw [hnil]
    exact List.forall_mem_nil _

/-- A version that was read and compared once can be compared with any. -/
lemma Read.comparable_left_of_compare (h : v.Read) (ho : v.compare w = .ok o) : v.Comparable := by
  obtain ⟨v', hv', -⟩ := bind_eq_ok.mp ho
  exact ⟨h, v', hv'⟩

/-- If there is a prerelease directly above a version, the version can be compared. -/
lemma Read.comparable_of_nextPrerelease (h : v.Read) (hp : v.isPrerelease = true)
    (hw : v.nextPrerelease = .ok w) : v.Comparable := by
  have hextended : v.extended.text = v.text ++ ['.', '0'] := text_extended hp
  rw [nextPrerelease, ← hextended] at hw
  obtain ⟨hlen, hids⟩ := h.wellFormed.extended.of_ofText_text hw
  rw [hextended, List.length_append] at hlen
  refine h.comparable_of_text (Nat.le_of_add_right_le hlen) fun a ha => ?_
  exact hids a (List.mem_append_left _ ha)

end Semver

namespace Bound

variable {b : Bound} {v : Semver} {ok : Bool}

/-- A lower bound that was compared with some version can be compared. -/
lemma comparable_of_isBelow (hb : b.version.Read) (h : b.isBelow v = .ok ok) :
    b.version.Comparable := by
  obtain ⟨o, ho, -⟩ := bind_eq_ok.mp h
  exact Semver.comparable_of_compare hb ho

/-- An upper bound that was compared with some version can be compared. -/
lemma comparable_of_isAbove (hb : b.version.Read) (h : b.isAbove v = .ok ok) :
    b.version.Comparable := by
  obtain ⟨o, ho, -⟩ := bind_eq_ok.mp h
  exact Semver.comparable_of_compare hb ho

end Bound

namespace Interval

variable {i j k : Interval} {lower upper : Option Bound} {allowed rs : List Release} {v : Semver}
  {f : Fault} {g : Grammar}

/-! ### What normalization leaves -/

/-- Whether an interval has all versions from one on that cannot be compared. -/
def BeginsLoose (i : Interval) : Prop :=
  ∃ v : Semver, v.Read ∧ ¬ v.Comparable ∧ i = ⟨some ⟨v, true⟩, none⟩

/-- The release takes the place of its prerelease if it lets in no prereleases. -/
lemma settle_of_not_mem {b : Bound} {inclusive : Bool} {r : Release}
    (hname : b.prereleaseOf? = some r) (hmem : r ∉ rs) :
    settle rs inclusive b = ⟨.ofRelease r, inclusive⟩ := by
  rw [settle, hname]
  exact if_neg hmem

/-- The upper bound that normalization leaves can be compared: if its release is let in, the bound
was compared, and otherwise the release takes its place. -/
lemma comparable_settled_upper (hupper : Bound.Read upper)
    (h : admitted lower upper allowed = .ok rs) :
    Bound.Comparable (upper.map (settle rs false)) := by
  cases upper with
  | none => exact Bound.comparable_none
  | some b =>
    have hread : b.version.Read := hupper b rfl
    by_cases hb : b.version.Comparable
    · exact comparable_settle (Bound.comparable_some.mpr hb)
    · have hname : b.prereleaseOf? = some b.version.release :=
        Bound.prereleaseOf?_eq_some.mpr ⟨hread.isPrerelease_of_not_comparable hb, rfl⟩
      by_cases hmem : b.version.release ∈ rs
      · obtain ⟨-, w, -, hbelow⟩ := exists_of_mem_admitted h hmem
        exact absurd (Bound.comparable_of_isAbove hread hbelow) hb
      · rw [Option.map_some, settle_of_not_mem hname hmem]
        exact Bound.comparable_some.mpr (Semver.comparable_ofRelease hread.wellFormed.release)

/-- The prereleases of the release of a lower bound that cannot be compared are found only if the
bound is inclusive and there is no upper one to compare it with. -/
lemma eq_of_admitsPrereleaseOf {b : Bound} {ok : Bool} (hread : b.version.Read)
    (hb : ¬ b.version.Comparable)
    (h : admitsPrereleaseOf b.version.release (some b) upper = .ok ok) :
    b = ⟨b.version, true⟩ ∧ upper = none := by
  have hp := hread.isPrerelease_of_not_comparable hb
  obtain ⟨o, ho, hok⟩ := bind_eq_ok.mp h
  rw [lowestPrerelease?, if_pos (Bound.prereleaseOf?_eq_some.mpr ⟨hp, rfl⟩)] at ho
  split at ho
  · next hinclusive =>
    cases ho
    refine ⟨by rw [← hinclusive], ?_⟩
    cases upper with
    | none => rfl
    | some u =>
      obtain ⟨o, ho, -⟩ := bind_eq_ok.mp hok
      exact absurd (hread.comparable_left_of_compare ho) hb
  · obtain ⟨w, hw, -⟩ := bind_eq_ok.mp ho
    exact absurd (hread.comparable_of_nextPrerelease hp hw) hb

/-- Normalization that looks at the release of its lower bound leaves an interval that can be
compared, or one that begins with a version that cannot. -/
lemma comparable_or_beginsLoose_of_normalize (hlower : Bound.Read lower)
    (hupper : Bound.Read upper) (hallowed : ∀ b ∈ lower, ∀ r, b.prereleaseOf? = some r → r ∈ allowed)
    (h : normalize lower upper allowed = .ok (some k)) : k.Comparable ∨ k.BeginsLoose := by
  obtain ⟨rs, hrs, rfl, -⟩ := exists_of_normalize h
  have hupper' := comparable_settled_upper hupper hrs
  by_cases hcomparable : Bound.Comparable lower
  · exact .inl ⟨comparable_settle hcomparable, hupper'⟩
  · cases lower with
    | none => exact absurd Bound.comparable_none hcomparable
    | some b =>
      have hread : b.version.Read := hlower b rfl
      have hb : ¬ b.version.Comparable := mt Bound.comparable_some.mpr hcomparable
      have hname : b.prereleaseOf? = some b.version.release :=
        Bound.prereleaseOf?_eq_some.mpr ⟨hread.isPrerelease_of_not_comparable hb, rfl⟩
      obtain ⟨ok, hok⟩ := exists_admitsPrereleaseOf hrs _ (hallowed b rfl _ hname)
      obtain ⟨hinclusive, rfl⟩ := eq_of_admitsPrereleaseOf hread hb hok
      rw [Option.map_some]
      by_cases hmem : b.version.release ∈ rs
      · have hsettle : settle rs true b = b := settle_of_mem fun r hr =>
          Option.some.inj (hname.symm.trans hr) ▸ hmem
        rw [hsettle]
        exact .inr ⟨b.version, hread, hb, by rw [← hinclusive]; rfl⟩
      · rw [settle_of_not_mem hname hmem]
        exact .inl ⟨Bound.comparable_some.mpr
          (Semver.comparable_ofRelease hread.wellFormed.release), hupper'⟩

/-- The interval of an alternative that was read can be compared, or begins with a version that
cannot. -/
theorem comparable_or_beginsLoose_of_ofAlternative {a : Alternative} (ha : ∀ c ∈ a, c.ReadWith g)
    (h : ofAlternative a = .ok (some k)) : k.Comparable ∨ k.BeginsLoose := by
  obtain ⟨j, hj, h⟩ := bind_eq_ok.mp h
  have hread : j.Read := .of_tightenAll ⟨Bound.read_none, Bound.read_none⟩ ha hj
  refine comparable_or_beginsLoose_of_normalize hread.lower hread.upper ?_ h
  intro b hb r hr
  rcases (eq_or_exists_of_tightenAll hj).1 with heq | ⟨c, hc, heq⟩
  · rw [heq] at hb
    cases hb
  · exact mem_prereleasesOfComparators.mpr
      ⟨c, hc, (c.prereleaseOf?_of_lower? (heq.symm.trans hb)).trans hr⟩

/-! ### Where such an interval is compared -/

lemma BeginsLoose.not_comparable (h : i.BeginsLoose) : ¬ i.Comparable := by
  obtain ⟨v, -, hv, rfl⟩ := h
  exact fun hi => hv (Bound.comparable_some.mp hi.lower)

lemma BeginsLoose.lower_ne_none (h : i.BeginsLoose) : i.lower ≠ none := by
  obtain ⟨v, -, -, rfl⟩ := h
  exact nofun

lemma BeginsLoose.upper_eq_none (h : i.BeginsLoose) : i.upper = none := by
  obtain ⟨v, -, -, rfl⟩ := h
  rfl

/-- Membership in an interval that begins loose cannot be told. -/
lemma BeginsLoose.contains_ne_ok (h : i.BeginsLoose) (w : Semver) (ok : Bool) :
    i.contains w ≠ .ok ok := by
  obtain ⟨v, hread, hv, rfl⟩ := h
  intro hcontains
  obtain ⟨above, habove, -⟩ := bind_eq_ok.mp hcontains
  exact hv (Bound.comparable_of_isBelow hread habove)

/-- Whether two intervals have a lower bound each, of which one cannot be compared. -/
def LowersClash (i j : Interval) : Prop :=
  (i.BeginsLoose ∨ j.BeginsLoose) ∧ i.lower ≠ none ∧ j.lower ≠ none

/-- Two lower bounds that clash have versions whose comparison does not return. -/
lemma LowersClash.exists_bounds (h : i.LowersClash j) : ∃ a b, i.lower = some a ∧
    j.lower = some b ∧ ∀ o, a.version.compare b.version ≠ .ok o := by
  obtain ⟨hloose, hi, hj⟩ := h
  obtain ⟨a, ha⟩ := Option.ne_none_iff_exists'.mp hi
  obtain ⟨b, hb⟩ := Option.ne_none_iff_exists'.mp hj
  refine ⟨a, b, ha, hb, fun o ho => ?_⟩
  rcases hloose with ⟨v, hread, hv, rfl⟩ | ⟨v, hread, hv, rfl⟩
  · cases ha
    exact hv (hread.comparable_left_of_compare ho)
  · cases hb
    exact hv (Semver.comparable_of_compare hread ho)

/-- Intervals whose lower bounds clash are not compared. -/
lemma LowersClash.compare_ne_ok (h : i.LowersClash j) (o : Ordering) : i.compare j ≠ .ok o := by
  obtain ⟨a, b, ha, hb, hne⟩ := h.exists_bounds
  intro hcompare
  obtain ⟨o', ho', -⟩ := bind_eq_ok.mp hcompare
  rw [ha, hb] at ho'
  obtain ⟨o, ho, -⟩ := bind_eq_ok.mp ho'
  exact hne o ho

/-- Neither of two lower bounds that clash is found to be the tighter one. -/
lemma LowersClash.tighterLower_ne_ok (h : i.LowersClash j) (x : Option Bound) :
    Bound.tighterLower i.lower j.lower ≠ .ok x := by
  obtain ⟨a, b, ha, hb, hne⟩ := h.exists_bounds
  intro hx
  rw [ha, hb] at hx
  obtain ⟨o, ho, -⟩ := bind_eq_ok.mp hx
  exact hne o ho

/-- Two intervals compare unless the versions of their lower bounds cannot be compared. -/
lemma exists_compare_iff (hi : i.Comparable ∨ i.BeginsLoose) (hj : j.Comparable ∨ j.BeginsLoose) :
    (∃ o, i.compare j = .ok o) ↔ ¬ i.LowersClash j := by
  refine ⟨fun ⟨o, ho⟩ hclash => hclash.compare_ne_ok o ho, fun hclash => ?_⟩
  by_cases hloose : i.BeginsLoose ∨ j.BeginsLoose
  · -- One of the two has no lower bound and comes first.
    by_cases hj' : j.lower = none
    · have hi' : i.lower ≠ none :=
        (hloose.resolve_right fun hj => hj.lower_ne_none hj').lower_ne_none
      obtain ⟨a, ha⟩ := Option.ne_none_iff_exists'.mp hi'
      rw [compare, ha, hj']
      exact ⟨.gt, rfl⟩
    · have hi' : i.lower = none := by
        by_contra hi'
        exact hclash ⟨hloose, hi', hj'⟩
      obtain ⟨b, hb⟩ := Option.ne_none_iff_exists'.mp hj'
      rw [compare, hi', hb]
      exact ⟨.lt, rfl⟩
  · obtain ⟨hni, hnj⟩ := not_or.mp hloose
    exact (hi.resolve_right hni).exists_compare (hj.resolve_right hnj)

/-! ### Intersections -/

/-- Whether the intersection of two intervals asks for a comparison with the version that one of
them begins with: both have a lower bound, or both have a prerelease bound of one release. -/
def Clashes (i j : Interval) : Prop :=
  (i.BeginsLoose ∨ j.BeginsLoose) ∧
    ((i.lower ≠ none ∧ j.lower ≠ none) ∨ ∃ r ∈ i.prereleasesOf, r ∈ j.prereleasesOf)

/-- Intervals that can be compared do not clash. -/
lemma not_clashes (hi : i.Comparable) (hj : j.Comparable) : ¬ i.Clashes j := by
  rintro ⟨hloose | hloose, -⟩
  · exact hloose.not_comparable hi
  · exact hloose.not_comparable hj

/-- An intersection at whose lower bound there is a version that cannot be compared is at no
limit. -/
lemma not_stuckWith_of_beginsLoose (h : i.BeginsLoose ∨ j.BeginsLoose) : ¬ i.StuckWith j f := by
  rintro ⟨lower, upper, hlower, -, hstuck⟩
  have hclash : ¬ i.LowersClash j := fun hclash => hclash.tighterLower_ne_ok lower hlower
  have hroom : HasRoom lower := by
    rcases h with hi | hj
    · have hj : j.lower = none := by
        by_contra hj
        exact hclash ⟨.inl hi, hi.lower_ne_none, hj⟩
      obtain ⟨v, -, -, rfl⟩ := hi
      rw [hj] at hlower
      cases hlower
      exact hasRoom_of_inclusive rfl
    · have hi : i.lower = none := by
        by_contra hi
        exact hclash ⟨.inr hj, hi, hj.lower_ne_none⟩
      obtain ⟨v, -, -, rfl⟩ := hj
      rw [hi] at hlower
      cases hlower
      exact hasRoom_of_inclusive rfl
  exact hroom.not_stuck hstuck

/-- Where one interval has no upper and the other no lower bound, no bounds are chosen among. -/
lemma intersect_of_opposite (hi : i.upper = none) (hj : j.lower = none) :
    i.intersect j = normalize i.lower j.upper (i.prereleasesOf.filter (· ∈ j.prereleasesOf)) ∧
      j.intersect i =
        normalize i.lower j.upper (j.prereleasesOf.filter (· ∈ i.prereleasesOf)) := by
  rw [intersect, intersect, hi, hj]
  cases i.lower <;> cases j.upper <;> exact ⟨rfl, rfl⟩

/-- Normalization with a lower bound that cannot be compared puts its release in the place of the
bound if it may let in no prereleases. -/
lemma BeginsLoose.normalize_nil (hi : i.BeginsLoose) (hupper : Bound.Comparable upper) :
    (∃ o, normalize i.lower upper [] = .ok o) ∧
      ∀ k, normalize i.lower upper [] = .ok (some k) → k.Comparable := by
  obtain ⟨v, hread, hv, rfl⟩ := hi
  have hname : Bound.prereleaseOf? ⟨v, true⟩ = some v.release :=
    Bound.prereleaseOf?_eq_some.mpr ⟨hread.isPrerelease_of_not_comparable hv, rfl⟩
  have hlower : Bound.Comparable (some ⟨.ofRelease v.release, true⟩) :=
    Bound.comparable_some.mpr (Semver.comparable_ofRelease hread.wellFormed.release)
  constructor
  · have hroom : ¬ LacksRelease (some ⟨.ofRelease v.release, true⟩) :=
      (hasRoom_of_inclusive rfl).1
    apply FailsOnly.exists_ok
    intro f hf
    rw [normalize, admitted, ok_bind, Option.map_some,
      settle_of_not_mem hname List.not_mem_nil] at hf
    rcases bind_eq_error.mp hf with hf | ⟨ok, -, hf⟩
    · exact hroom ((admitsRelease_error_iff hlower (comparable_settle hupper)).mp hf).2
    · cases ok <;> cases hf
  · intro k hk
    obtain ⟨rs, hrs, rfl, -⟩ := exists_of_normalize hk
    cases hrs
    rw [Option.map_some, settle_of_not_mem hname List.not_mem_nil]
    exact ⟨hlower, comparable_settle hupper⟩

/-- Normalization with a lower bound that cannot be compared returns, where an upper bound is a
prerelease of its release, only if that is not looked at. -/
lemma BeginsLoose.not_mem_of_normalize {o : Option Interval} (hi : i.BeginsLoose)
    (hj : j.lower = none) (hallowed : ∀ r ∈ i.prereleasesOf, r ∈ j.prereleasesOf → r ∈ allowed)
    (h : normalize i.lower j.upper allowed = .ok o) :
    ∀ r ∈ i.prereleasesOf, r ∉ j.prereleasesOf := by
  intro r hr hjr
  obtain ⟨rs, hrs, -⟩ := bind_eq_ok.mp h
  obtain ⟨ok, hok⟩ := exists_admitsPrereleaseOf hrs r (hallowed r hr hjr)
  obtain ⟨v, hread, hv, rfl⟩ := hi
  obtain ⟨b, ⟨⟩, hb⟩ | ⟨b, ⟨⟩, -⟩ := mem_prereleasesOf_iff.mp hr
  obtain ⟨-, rfl⟩ := Bound.prereleaseOf?_eq_some.mp hb
  obtain ⟨-, hupper⟩ := eq_of_admitsPrereleaseOf (b := ⟨v, true⟩) hread hv hok
  rcases mem_prereleasesOf_iff.mp hjr with ⟨b, hb, -⟩ | ⟨b, hb, -⟩
  · rw [hj] at hb
    cases hb
  · rw [hupper] at hb
    cases hb

/-- Normalization below an upper bound returns exactly if no release is named by both intervals, and
what it leaves can be compared. -/
lemma BeginsLoose.exists_normalize_iff (hi : i.BeginsLoose) (hj : j.Comparable)
    (hlower : j.lower = none)
    (hallowed : ∀ r, r ∈ allowed ↔ r ∈ i.prereleasesOf ∧ r ∈ j.prereleasesOf) :
    ((∃ o, normalize i.lower j.upper allowed = .ok o) ↔
        ¬ ∃ r ∈ i.prereleasesOf, r ∈ j.prereleasesOf) ∧
      ∀ k, normalize i.lower j.upper allowed = .ok (some k) → k.Comparable := by
  by_cases hcommon : ∃ r ∈ i.prereleasesOf, r ∈ j.prereleasesOf
  · have hne (o : Option Interval) : normalize i.lower j.upper allowed ≠ .ok o := by
      intro ho
      obtain ⟨r, hr, hjr⟩ := hcommon
      exact hi.not_mem_of_normalize hlower (fun r hr hjr => (hallowed r).mpr ⟨hr, hjr⟩) ho r hr hjr
    exact ⟨iff_of_false (fun ⟨o, ho⟩ => hne o ho) (not_not.mpr hcommon),
      fun k hk => absurd hk (hne _)⟩
  · have hnil : allowed = [] := List.eq_nil_iff_forall_not_mem.mpr fun r hr =>
      hcommon ⟨r, (hallowed r).mp hr⟩
    obtain ⟨hreturns, hcomparable⟩ := hi.normalize_nil hj.upper
    rw [hnil]
    exact ⟨iff_of_true hreturns hcommon, hcomparable⟩

/-- An interval that begins loose intersects with one without a lower bound, in either order, unless
both name one release. -/
lemma BeginsLoose.exists_intersect_iff (hi : i.BeginsLoose) (hj : j.Comparable)
    (hlower : j.lower = none) :
    (((∃ o, i.intersect j = .ok o) ↔ ¬ ∃ r ∈ i.prereleasesOf, r ∈ j.prereleasesOf) ∧
        ∀ k, i.intersect j = .ok (some k) → k.Comparable) ∧
      ((∃ o, j.intersect i = .ok o) ↔ ¬ ∃ r ∈ i.prereleasesOf, r ∈ j.prereleasesOf) ∧
        ∀ k, j.intersect i = .ok (some k) → k.Comparable := by
  obtain ⟨hij, hji⟩ := intersect_of_opposite hi.upper_eq_none hlower
  rw [hij, hji]
  exact ⟨hi.exists_normalize_iff hj hlower fun r => by simp,
    hi.exists_normalize_iff hj hlower fun r => by simp [and_comm]⟩

/-- Where one of two intervals begins loose and their lower bounds do not clash, all that can keep
them from intersecting is a release that both name. -/
lemma not_clashes_and_not_stuckWith_iff (hloose : i.BeginsLoose ∨ j.BeginsLoose)
    (hlowers : ¬ i.LowersClash j) : (¬ i.Clashes j ∧ ∀ f, ¬ i.StuckWith j f) ↔
      ¬ ∃ r ∈ i.prereleasesOf, r ∈ j.prereleasesOf := by
  rw [and_iff_left fun f => not_stuckWith_of_beginsLoose hloose, Clashes, and_iff_right hloose,
    or_iff_right fun h => hlowers ⟨hloose, h⟩]

/-- Two intervals intersect unless a version is compared that cannot be, or the intersection is at a
limit. What they have in common can be compared. -/
theorem exists_intersect_iff (hi : i.Comparable ∨ i.BeginsLoose)
    (hj : j.Comparable ∨ j.BeginsLoose) :
    ((∃ o, i.intersect j = .ok o) ↔ ¬ i.Clashes j ∧ ∀ f, ¬ i.StuckWith j f) ∧
      ∀ k, i.intersect j = .ok (some k) → k.Comparable := by
  by_cases hlowers : i.LowersClash j
  · have hne (o : Option Interval) : i.intersect j ≠ .ok o := by
      intro ho
      obtain ⟨lower, hlower, -⟩ := bind_eq_ok.mp ho
      exact hlowers.tighterLower_ne_ok lower hlower
    exact ⟨iff_of_false (fun ⟨o, ho⟩ => hne o ho) fun h => h.1 ⟨hlowers.1, .inl hlowers.2⟩,
      fun k hk => absurd hk (hne _)⟩
  by_cases hloose : i.BeginsLoose ∨ j.BeginsLoose
  · rw [not_clashes_and_not_stuckWith_iff hloose hlowers]
    by_cases hlower : j.lower = none
    · have hj' : ¬ j.BeginsLoose := fun hj => hj.lower_ne_none hlower
      exact ((hloose.resolve_right hj').exists_intersect_iff (hj.resolve_right hj') hlower).1
    · have hlower' : i.lower = none := by
        by_contra hne
        exact hlowers ⟨hloose, hne, hlower⟩
      have hi' : ¬ i.BeginsLoose := fun hi => hi.lower_ne_none hlower'
      simp only [and_comm (a := _ ∈ i.prereleasesOf)]
      exact ((hloose.resolve_left hi').exists_intersect_iff (hi.resolve_right hi') hlower').2
  · obtain ⟨hni, hnj⟩ := not_or.mp hloose
    have hic := hi.resolve_right hni
    have hjc := hj.resolve_right hnj
    refine ⟨?_, fun k hk => (normal_of_intersect hic hjc hk).1⟩
    rw [and_iff_right (not_clashes hic hjc)]
    constructor
    · rintro ⟨o, ho⟩ f hstuck
      cases ho.symm.trans ((intersect_error_iff hic hjc).mpr hstuck)
    · intro hnone
      apply FailsOnly.exists_ok
      exact fun f hf => hnone f ((intersect_error_iff hic hjc).mp hf)

end Interval

end VersionConstraints
