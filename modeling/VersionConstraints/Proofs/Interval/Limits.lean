import VersionConstraints.Proofs.Interval.Comparable
import VersionConstraints.Proofs.Semver.Limits

/-!
# Limits of normalization

To find out what lies between two bounds, normalization asks for the version directly above an
exclusive lower bound. It fails exactly where there is no such version: the text of a prerelease
would be too long, or a release has the last patch. A prerelease is only asked for if its release is
let in, and a release only if nothing that is let in lies between the bounds.
-/

namespace VersionConstraints

namespace Interval

variable {i j k : Interval} {lower upper : Option Bound} {allowed rs : List Release} {r : Release}
  {f : Fault} {v : Semver}

/-! ### Missing candidates -/

/-- Whether there is no prerelease of a release directly above an exclusive lower bound at one. -/
def LacksPrerelease (r : Release) (lower : Option Bound) : Prop :=
  ∃ b ∈ lower, b.prereleaseOf? = some r ∧ b.inclusive = false ∧ b.version.IsFull

/-- Whether there is no release directly above an exclusive lower bound at one. -/
def LacksRelease (lower : Option Bound) : Prop :=
  ∃ b ∈ lower, b.version.isPrerelease = false ∧ b.inclusive = false ∧ b.version.release.IsLast

lemma lacksPrerelease_some {b : Bound} : LacksPrerelease r (some b) ↔
    b.prereleaseOf? = some r ∧ b.inclusive = false ∧ b.version.IsFull := by
  simp [LacksPrerelease]

lemma lacksRelease_some {b : Bound} : LacksRelease (some b) ↔
    b.version.isPrerelease = false ∧ b.inclusive = false ∧ b.version.release.IsLast := by
  simp [LacksRelease]

/-- The search for a prerelease of a release fails only where no version fits above the bound. -/
lemma lowestPrerelease?_error_iff (hlower : Bound.Comparable lower) (hr : r.Safe) :
    lowestPrerelease? r lower = .error f ↔ f = .tooLong ∧ LacksPrerelease r lower := by
  cases lower with
  | none => exact iff_of_false nofun (by simp [LacksPrerelease])
  | some b =>
    have hb : b.version.Comparable := hlower b rfl
    rw [lacksPrerelease_some, lowestPrerelease?]
    by_cases hname : b.prereleaseOf? = some r
    · have hp := (Bound.prereleaseOf?_eq_some.mp hname).1
      rw [if_pos hname, hb.nextPrerelease_eq hp]
      cases b.inclusive with
      | true => simp
      | false =>
        by_cases hfull : b.version.IsFull
        · simp [hname, hfull, eq_comm]
        · simp [hfull]
    · obtain ⟨ok, hok⟩ := Bound.exists_isBelow hb (Semver.comparable_lowestPrerelease hr)
      rw [if_neg hname, hok, ok_bind]
      cases ok <;> simp [hname]

/-- The search for a release fails only above an excluded bound at the last patch. -/
lemma lowestRelease_error_iff :
    lowestRelease lower = .error f ↔ f = .tooLarge .patch ∧ LacksRelease lower := by
  cases lower with
  | none => exact iff_of_false nofun (by simp [LacksRelease])
  | some b =>
    rw [lacksRelease_some, lowestRelease, Semver.nextPatch_eq]
    cases b.version.isPrerelease with
    | true => simp
    | false =>
      cases b.inclusive with
      | true => simp
      | false =>
        by_cases hlast : b.version.release.IsLast
        · simp [hlast, eq_comm]
        · simp [hlast]

/-- The release the search finds compares with every other version. -/
lemma comparable_of_lowestRelease (hlower : Bound.Comparable lower)
    (h : lowestRelease lower = .ok v) : v.Comparable := by
  cases lower with
  | none =>
    cases h
    exact Semver.comparable_ofRelease (by decide)
  | some b =>
    have hb : b.version.Comparable := hlower b rfl
    rw [lowestRelease] at h
    split at h
    · cases h
      exact Semver.comparable_ofRelease hb.wellFormed.release
    · split at h
      · cases h
        exact hb
      · obtain ⟨rfl, hlt⟩ := Semver.eq_of_nextPatch h
        have hsafe := hb.wellFormed.release
        exact Semver.comparable_ofRelease ⟨hsafe.major_le, hsafe.minor_le, hlt⟩

/-! ### Normalization -/

/-- How normalization can be at a limit, and the fault that it ends with. -/
inductive Stuck (lower upper : Option Bound) (allowed : List Release) : Fault → Prop
  /-- The prerelease above the lower bound is missing, and its release may be let in. -/
  | tooLong {r : Release} (hr : r ∈ allowed) (h : LacksPrerelease r lower) :
      Stuck lower upper allowed .tooLong
  /-- The release above the lower bound is missing, and no prerelease is let in. -/
  | tooLarge (h : LacksRelease lower)
      (hnone : ∀ r ∈ allowed, admitsPrereleaseOf r lower upper = .ok false) :
      Stuck lower upper allowed (.tooLarge .patch)

/-- A bound that is settled with no releases lacks one above it exactly if it did before. -/
lemma lacksRelease_settle :
    LacksRelease (lower.map (settle [] true)) ↔ LacksRelease lower := by
  cases lower with
  | none => exact iff_of_false (by simp [LacksRelease]) (by simp [LacksRelease])
  | some b =>
    rw [Option.map_some, lacksRelease_some, lacksRelease_some]
    obtain heq | ⟨r, -, htier, heq⟩ := settle_cases true [] b
    · rw [heq]
    · have hp := (Semver.tier_eq_below_iff.mp htier).1
      rw [heq, hp]
      simp

/-- No release is kept exactly when each one is turned down on its own. -/
lemma admitted_eq_nil_iff : admitted lower upper allowed = .ok [] ↔
    ∀ r ∈ allowed, admitsPrereleaseOf r lower upper = .ok false := by
  induction allowed with
  | nil => exact iff_of_true rfl nofun
  | cons r rs ih =>
    rw [List.forall_mem_cons, ← ih, admitted]
    cases admitsPrereleaseOf r lower upper with
    | error g => simp
    | ok ok =>
      cases admitted lower upper rs with
      | error g => simp
      | ok rest => cases ok <;> simp

section Normalization

variable (hlower : Bound.Comparable lower) (hupper : Bound.Comparable upper)

include hlower hupper

/-- Asking whether a release keeps its prereleases fails exactly where the search for one does. -/
lemma admitsPrereleaseOf_error_iff (hr : r.Safe) :
    admitsPrereleaseOf r lower upper = .error f ↔ f = .tooLong ∧ LacksPrerelease r lower := by
  rw [← lowestPrerelease?_error_iff hlower hr, admitsPrereleaseOf, bind_eq_error, or_iff_left]
  rintro ⟨o, ho, h⟩
  cases o with
  | none => cases h
  | some w =>
    obtain ⟨hw, -, -⟩ := tier_of_lowestPrerelease? hlower hr ho
    obtain ⟨ok, hok⟩ := exists_isBelowUpper hupper hw
    cases hok.symm.trans h

/-- Asking for a release between two bounds fails exactly where the search for one does. -/
lemma admitsRelease_error_iff :
    admitsRelease lower upper = .error f ↔ f = .tooLarge .patch ∧ LacksRelease lower := by
  rw [← lowestRelease_error_iff, admitsRelease, bind_eq_error, or_iff_left]
  rintro ⟨v, hv, h⟩
  obtain ⟨ok, hok⟩ := exists_isBelowUpper hupper (comparable_of_lowestRelease hlower hv)
  cases hok.symm.trans h

/-- Sifting the releases fails exactly when the search fails for one of them. -/
lemma admitted_error_iff (hsafe : ∀ r ∈ allowed, r.Safe) :
    admitted lower upper allowed = .error f ↔
      f = .tooLong ∧ ∃ r ∈ allowed, LacksPrerelease r lower := by
  induction allowed with
  | nil => exact iff_of_false nofun (by simp)
  | cons r rs ih =>
    obtain ⟨hr, hrs⟩ := List.forall_mem_cons.mp hsafe
    have hhead (g : Fault) := admitsPrereleaseOf_error_iff hlower hupper hr (f := g)
    rw [List.exists_mem_cons_iff, and_or_left, ← hhead, ← ih hrs, admitted, bind_eq_error]
    cases hok : admitsPrereleaseOf r lower upper with
    | error g =>
      refine or_congr_right' fun hne => iff_of_false (by simp) fun h => hne ?_
      rw [((hhead g).mp hok).1, ((ih hrs).mp h).1]
    | ok ok => simp [bind_eq_error]

/-- Normalization fails exactly at a limit, and with its fault. -/
theorem normalize_error_iff (hsafe : ∀ r ∈ allowed, r.Safe) :
    normalize lower upper allowed = .error f ↔ Stuck lower upper allowed f := by
  have hrelease : admitsRelease (lower.map (settle [] true)) (upper.map (settle [] false)) =
      .error f ↔ f = .tooLarge .patch ∧ LacksRelease lower := by
    rw [admitsRelease_error_iff (comparable_settle hlower) (comparable_settle hupper),
      lacksRelease_settle]
  rw [normalize, bind_eq_error, admitted_error_iff hlower hupper hsafe]
  constructor
  · rintro (⟨rfl, r, hr, hlacks⟩ | ⟨rs, hrs, h⟩)
    · exact .tooLong hr hlacks
    · cases rs with
      | cons r rs => cases h
      | nil =>
        rcases bind_eq_error.mp h with h | ⟨ok, -, h⟩
        · obtain ⟨rfl, hlacks⟩ := hrelease.mp h
          exact .tooLarge hlacks (admitted_eq_nil_iff.mp hrs)
        · cases ok <;> cases h
  · rintro (⟨hr, hlacks⟩ | ⟨hlacks, hnone⟩)
    · exact .inl ⟨rfl, _, hr, hlacks⟩
    · exact .inr ⟨[], admitted_eq_nil_iff.mpr hnone,
        bind_eq_error.mpr (.inl (hrelease.mpr ⟨rfl, hlacks⟩))⟩

end Normalization

/-- Normalization knows two faults: a text too long and a patch too large. -/
lemma Stuck.eq_or (h : Stuck lower upper allowed f) : f = .tooLong ∨ f = .tooLarge .patch := by
  cases h with
  | tooLong => exact .inl rfl
  | tooLarge => exact .inr rfl

/-! ### Intersections -/

/-- How the intersection of two intervals can be at a limit. -/
def StuckWith (i j : Interval) (f : Fault) : Prop :=
  ∃ lower upper, Bound.tighterLower i.lower j.lower = .ok lower ∧
    Bound.tighterUpper i.upper j.upper = .ok upper ∧
    Stuck lower upper (i.prereleasesOf.filter (· ∈ j.prereleasesOf)) f

/-- An intersection knows the same two faults. -/
lemma StuckWith.eq_or (h : i.StuckWith j f) : f = .tooLong ∨ f = .tooLarge .patch := by
  obtain ⟨lower, upper, -, -, hstuck⟩ := h
  exact hstuck.eq_or

/-- The intersection of two intervals fails exactly at a limit. -/
theorem intersect_error_iff (hi : i.Comparable) (hj : j.Comparable) :
    i.intersect j = .error f ↔ i.StuckWith j f := by
  obtain ⟨lower, hlower⟩ := Bound.exists_tighterLower hi.lower hj.lower
  obtain ⟨upper, hupper⟩ := Bound.exists_tighterUpper hi.upper hj.upper
  have hlower' := comparable_of_eq_or hi.lower hj.lower
    (Bound.tighterLower_reaches hi.lower hj.lower hlower).1
  have hupper' := comparable_of_eq_or hi.upper hj.upper
    (Bound.tighterUpper_reaches hi.upper hj.upper hupper).1
  have hsafe : ∀ r ∈ i.prereleasesOf.filter (· ∈ j.prereleasesOf), r.Safe :=
    fun r hr => hi.safe_of_mem (List.mem_filter.mp hr).1
  rw [intersect, hlower, ok_bind, hupper, ok_bind, normalize_error_iff hlower' hupper' hsafe,
    StuckWith, hlower, hupper]
  simp

/-! ### Room above lower bounds -/

/-- Whether an optional lower bound has a version directly above it, if it is exclusive. -/
def HasRoom (lower : Option Bound) : Prop :=
  ¬ LacksRelease lower ∧ ∀ r, ¬ LacksPrerelease r lower

/-- Above a bound with room, normalization does not fail. -/
lemma HasRoom.not_stuck (h : HasRoom lower) : ¬ Stuck lower upper allowed f := by
  rintro (⟨-, hlacks⟩ | ⟨hlacks, -⟩)
  · exact h.2 _ hlacks
  · exact h.1 hlacks

/-- A bound that is itself included needs no version above it. -/
lemma hasRoom_of_inclusive {b : Bound} (h : b.inclusive = true) : HasRoom (some b) := by
  constructor
  · rw [lacksRelease_some, h]
    simp
  · intro r
    rw [lacksPrerelease_some, h]
    simp

lemma HasRoom.settle (h : HasRoom lower) : HasRoom (lower.map (settle rs true)) := by
  cases lower with
  | none => exact h
  | some b =>
    obtain heq | ⟨r, -, -, heq⟩ := settle_cases true rs b
    · rw [Option.map_some, heq]
      exact h
    · rw [Option.map_some, heq]
      exact hasRoom_of_inclusive rfl

/-- Intersections keep the room above lower bounds. -/
lemma HasRoom.of_intersect (hi : i.Comparable) (hj : j.Comparable) (hir : HasRoom i.lower)
    (hjr : HasRoom j.lower) (h : i.intersect j = .ok (some k)) : HasRoom k.lower := by
  obtain ⟨lower, hlower, h⟩ := bind_eq_ok.mp h
  obtain ⟨upper, -, h⟩ := bind_eq_ok.mp h
  obtain ⟨rs, -, rfl, -⟩ := exists_of_normalize h
  refine HasRoom.settle ?_
  rcases (Bound.tighterLower_reaches hi.lower hj.lower hlower).1 with rfl | rfl
  · exact hir
  · exact hjr

/-- Two intervals whose lower bounds have room intersect without a fault. -/
lemma HasRoom.not_stuckWith (hi : i.Comparable) (hj : j.Comparable) (hir : HasRoom i.lower)
    (hjr : HasRoom j.lower) : ¬ i.StuckWith j f := by
  rintro ⟨lower, upper, hlower, -, hstuck⟩
  rcases (Bound.tighterLower_reaches hi.lower hj.lower hlower).1 with rfl | rfl
  · exact hir.not_stuck hstuck
  · exact hjr.not_stuck hstuck

end Interval

/-! ### Alternatives -/

/-- How folding an alternative can be at a limit. -/
def Alternative.Stuck (a : Alternative) (f : Fault) : Prop :=
  ∃ i, Interval.tightenAll ⟨none, none⟩ a = .ok i ∧
    Interval.Stuck i.lower i.upper (Interval.prereleasesOfComparators a) f

/-- An alternative is folded with one of the two faults of normalization, if any. -/
lemma Alternative.Stuck.eq_or {a : Alternative} {f : Fault} (h : a.Stuck f) :
    f = .tooLong ∨ f = .tooLarge .patch := by
  obtain ⟨i, -, hstuck⟩ := h
  exact Interval.Stuck.eq_or hstuck

/-- Folding an alternative fails exactly at a limit. -/
theorem Interval.ofAlternative_error_iff {a : Alternative} {f : Fault}
    (ha : ∀ c ∈ a, c.Comparable) : ofAlternative a = .error f ↔ a.Stuck f := by
  have hnone : Comparable ⟨none, none⟩ := ⟨Bound.comparable_none, Bound.comparable_none⟩
  obtain ⟨i, hi⟩ := exists_tightenAll hnone ha
  have hcomparable := (tightened_of_tightenAll hnone ha hi).comparable hnone ha
  have hsafe : ∀ r ∈ prereleasesOfComparators a, r.Safe := by
    intro r hr
    obtain ⟨c, hc, hcr⟩ := mem_prereleasesOfComparators.mp hr
    exact (ha c hc).safe hcr
  rw [ofAlternative, hi, ok_bind, normalize_error_iff hcomparable.lower hcomparable.upper hsafe,
    Alternative.Stuck, hi]
  simp

end VersionConstraints
