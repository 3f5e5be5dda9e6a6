import VersionConstraints.Proofs.Interval.Admission

/-!
# When intersections of intervals fail

The intersection of two intervals fails for two reasons only, and both lie in the tighter lower
bound if that is exclusive. The one is a prerelease whose text has no room for another identifier,
where both intervals let in prereleases of its release. The other is a release with the last patch,
where no prerelease that both intervals let in lies between the tighter bounds. All other texts that
are made of the bounds are read as versions.
-/

namespace VersionConstraints

namespace Interval

variable {i j : Interval} {lower upper : Option Bound} {r : Release} {v : Semver} {f : Fault}

/-! ### The tighter bounds -/

/-- The tighter bounds of two intervals. A version is beyond one of them if and only if it is beyond
the bounds of both intervals. -/
structure TighterBounds (i j : Interval) (lower upper : Option Bound) : Prop where
  lower_eq : Bound.tighterLower i.lower j.lower = .ok lower
  upper_eq : Bound.tighterUpper i.upper j.upper = .ok upper
  above_iff : ∀ v : Semver, v.Comparable → (isAboveLower lower v = .ok true ↔
    isAboveLower i.lower v = .ok true ∧ isAboveLower j.lower v = .ok true)
  below_iff : ∀ v : Semver, v.Comparable → (isBelowUpper upper v = .ok true ↔
    isBelowUpper i.upper v = .ok true ∧ isBelowUpper j.upper v = .ok true)

/-- Two intervals with regular bounds have tighter bounds. -/
lemma Regular.exists_tighterBounds (hi : i.Regular) (hj : j.Regular) :
    ∃ lower upper, TighterBounds i j lower upper ∧ Bound.Regular lower ∧ Bound.Regular upper := by
  obtain ⟨lower, hlower, hregular, hmax⟩ := Bound.tighterLower_spec hi.lower hj.lower
  obtain ⟨upper, hupper, hregular', hmin⟩ := Bound.tighterUpper_spec hi.upper hj.upper
  refine ⟨lower, upper, ⟨hlower, hupper, ?_, ?_⟩, hregular, hregular'⟩
  · intro v hv
    rw [(isAboveLower_spec hregular hv).eq_ok_true_iff,
      (isAboveLower_spec hi.lower hv).eq_ok_true_iff,
      (isAboveLower_spec hj.lower hv).eq_ok_true_iff, hmax, max_le_iff]
  · intro v hv
    rw [(isBelowUpper_spec hregular' hv).eq_ok_true_iff,
      (isBelowUpper_spec hi.upper hv).eq_ok_true_iff,
      (isBelowUpper_spec hj.upper hv).eq_ok_true_iff, hmin, lt_min_iff]

/-! ### Reasons to fail -/

/-- The tighter lower bound is exclusive, at a prerelease whose text has no room for another
identifier, and both intervals have a prerelease of the same release for a bound. -/
def EndsFull (i j : Interval) (lower : Option Bound) : Prop :=
  ∃ b ∈ lower, b.inclusive = false ∧ b.version.isPrerelease = true ∧
    i.HasPrereleaseBound b.version.release ∧ j.HasPrereleaseBound b.version.release ∧
    254 < b.version.text.length

/-- The tighter lower bound is exclusive, at a release with the last patch, and between the tighter
bounds there is no prerelease of a release of which both intervals have a prerelease for a bound. -/
def EndsLast (i j : Interval) (lower upper : Option Bound) : Prop :=
  ∃ b ∈ lower, b.inclusive = false ∧ b.version.isPrerelease = false ∧
    b.version.release.patch = Numeral.maxSafe ∧
    ∀ r, i.HasPrereleaseBound r → j.HasPrereleaseBound r →
      ¬ ∃ v, IsPrereleaseBetween r lower upper v

/-- The releases that an intersection may let in are those that both intervals have prerelease
bounds of. -/
lemma mem_common : r ∈ i.prereleasesOf.filter (· ∈ j.prereleasesOf) ↔
    i.HasPrereleaseBound r ∧ j.HasPrereleaseBound r := by
  simp [mem_prereleasesOf_iff_hasPrereleaseBound]

/-- An intersection is at a limit if normalization of the tighter bounds is. -/
lemma TighterBounds.stuckWith_iff (h : TighterBounds i j lower upper) : i.StuckWith j f ↔
    Stuck lower upper (i.prereleasesOf.filter (· ∈ j.prereleasesOf)) f := by
  simp [StuckWith, h.lower_eq, h.upper_eq]

/-- An intersection fails for length where the tighter lower bound is full. -/
lemma TighterBounds.stuckWith_tooLong_iff (h : TighterBounds i j lower upper) :
    i.StuckWith j .tooLong ↔ EndsFull i j lower := by
  rw [h.stuckWith_iff]
  constructor
  · rintro ⟨hr, b, hb, hname, hexclusive, hfull⟩
    obtain ⟨hp, rfl⟩ := Bound.prereleaseOf?_eq_some.mp hname
    obtain ⟨hri, hrj⟩ := mem_common.mp hr
    exact ⟨b, hb, hexclusive, hp, hri, hrj, Semver.isFull_iff.mp hfull⟩
  · rintro ⟨b, hb, hexclusive, hp, hri, hrj, hlong⟩
    refine .tooLong (mem_common.mpr ⟨hri, hrj⟩) ⟨b, hb, ?_, hexclusive, Semver.isFull_iff.mpr hlong⟩
    exact Bound.prereleaseOf?_eq_some.mpr ⟨hp, rfl⟩

/-- A bound at a release has no prerelease that could be missing. -/
lemma LacksRelease.not_lacksPrerelease (h : LacksRelease lower) : ¬ LacksPrerelease r lower := by
  rintro ⟨b, hb, hname, -⟩
  obtain ⟨c, hc, hrelease, -⟩ := h
  obtain rfl := Option.mem_unique hb hc
  rw [(Bound.prereleaseOf?_eq_some.mp hname).1] at hrelease
  cases hrelease

/-- Above a release, a test for prereleases fails only if there are none. -/
lemma admitsPrereleaseOf_eq_false_iff (hlower : Bound.Regular lower) (hupper : Bound.Regular upper)
    (hr : r.Safe) (h : LacksRelease lower) :
    admitsPrereleaseOf r lower upper = .ok false ↔ ¬ ∃ v, IsPrereleaseBetween r lower upper v := by
  cases hfound : admitsPrereleaseOf r lower upper with
  | error f =>
    have hlacks := (admitsPrereleaseOf_error_iff hlower.comparable hupper.comparable hr).mp hfound
    exact absurd hlacks.2 h.not_lacksPrerelease
  | ok found =>
    rw [← admitsPrereleaseOf_iff hlower hupper hr hfound]
    simp

/-- An intersection fails for size where the tighter lower bound is the last patch. -/
lemma TighterBounds.stuckWith_tooLarge_iff (h : TighterBounds i j lower upper) (hi : i.Regular)
    (hlower : Bound.Regular lower) (hupper : Bound.Regular upper) :
    i.StuckWith j (.tooLarge .patch) ↔ EndsLast i j lower upper := by
  have hadmits (hlacks : LacksRelease lower) (r : Release) (hr : i.HasPrereleaseBound r) :=
    admitsPrereleaseOf_eq_false_iff hlower hupper
      (hi.safe_of_mem (mem_prereleasesOf_iff_hasPrereleaseBound.mpr hr)) hlacks
  rw [h.stuckWith_iff]
  constructor
  · rintro (_ | ⟨hlacks, hnone⟩)
    obtain ⟨b, hb, hrelease, hexclusive, hlast⟩ := hlacks
    have hpatch := (Semver.isLast_iff (hlower b hb).wellFormed.release).mp hlast
    refine ⟨b, hb, hexclusive, hrelease, hpatch, ?_⟩
    intro r hri hrj
    exact (hadmits ⟨b, hb, hrelease, hexclusive, hlast⟩ r hri).mp
      (hnone r (mem_common.mpr ⟨hri, hrj⟩))
  · rintro ⟨b, hb, hexclusive, hrelease, hpatch, hnone⟩
    have hlacks : LacksRelease lower := ⟨b, hb, hrelease, hexclusive, hpatch.ge⟩
    refine .tooLarge hlacks ?_
    intro r hr
    obtain ⟨hri, hrj⟩ := mem_common.mp hr
    exact (hadmits hlacks r hri).mpr (hnone r hri hrj)

/-! ### Failure -/

/-- The intersection of two intervals fails with a version that is too long exactly if the tighter
lower bound is at a prerelease without one directly behind it that may be let in, and with an
invalid patch exactly if it is at a release without one directly behind it that is asked for.
Otherwise it returns. All other texts that are made of the bounds are read as versions. -/
theorem intersect_fails (i j : Interval) (hi : i.Regular) (hj : j.Regular) :
    ∃ lower upper, TighterBounds i j lower upper ∧
      (i.intersect j = .error .tooLong ↔ EndsFull i j lower) ∧
      (i.intersect j = .error (.tooLarge .patch) ↔ EndsLast i j lower upper) ∧
      ((∃ o, i.intersect j = .ok o) ↔ ¬ (EndsFull i j lower ∨ EndsLast i j lower upper)) ∧
      Fault.tooLong.message = "version is longer than 256 characters" ∧
      (Fault.tooLarge .patch).message = "Invalid patch version" ∧
      ∀ b, b ∈ i.lower ∨ b ∈ i.upper ∨ b ∈ j.lower ∨ b ∈ j.upper →
        b.version.ReadsNeighbours := by
  obtain ⟨lower, upper, htighter, hlower, hupper⟩ := hi.exists_tighterBounds hj
  have htooLong : i.intersect j = .error .tooLong ↔ EndsFull i j lower := by
    rw [intersect_error_iff hi.comparable hj.comparable, htighter.stuckWith_tooLong_iff]
  have htooLarge : i.intersect j = .error (.tooLarge .patch) ↔ EndsLast i j lower upper := by
    rw [intersect_error_iff hi.comparable hj.comparable,
      htighter.stuckWith_tooLarge_iff hi hlower hupper]
  refine ⟨lower, upper, htighter, htooLong, htooLarge, ?_, rfl, rfl, ?_⟩
  · rw [← htooLong, ← htooLarge]
    cases h : i.intersect j with
    | ok o => simp
    | error f =>
      refine iff_of_false nofun (not_not.mpr ?_)
      rcases ((intersect_error_iff hi.comparable hj.comparable).mp h).eq_or with rfl | rfl
      · exact .inl rfl
      · exact .inr rfl
  · rintro b (hb | hb | hb | hb)
    · exact (hi.comparable.lower b hb).readsNeighbours
    · exact (hi.comparable.upper b hb).readsNeighbours
    · exact (hj.comparable.lower b hb).readsNeighbours
    · exact (hj.comparable.upper b hb).readsNeighbours

def longest : Semver := ⟨⟨1, 2, 0⟩, [.word (List.replicate 249 'a')], [], .strict⟩

def aboveLongest : Interval := ⟨some ⟨longest, false⟩, none⟩

lemma ordinary_longest : longest.Ordinary := by
  refine ⟨⟨longest.text, by decide +kernel⟩, ?_⟩
  simp only [longest, List.mem_singleton, Identifier.word.injEq, forall_eq]
  decide +kernel

theorem intersect_fails_longest : ∃ lower upper,
    TighterBounds aboveLongest aboveLongest lower upper ∧
      EndsFull aboveLongest aboveLongest lower ∧ longest.ReadsNeighbours := by
  have hregular : aboveLongest.Regular :=
    ⟨Bound.regular_some.mpr ordinary_longest.regular, Bound.regular_none⟩
  have herror : aboveLongest.intersect aboveLongest = .error .tooLong := by decide +kernel
  obtain ⟨lower, upper, htighter, hfull, -, -, -, -, hreads⟩ :=
    intersect_fails aboveLongest aboveLongest hregular hregular
  exact ⟨lower, upper, htighter, hfull.mp herror, hreads ⟨longest, false⟩ (.inl rfl)⟩

end Interval

end VersionConstraints
