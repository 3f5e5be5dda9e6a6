import VersionConstraints.Proofs.Comparison
import VersionConstraints.Proofs.Interval.Admission

/-!
# The candidate for admission

Whether a release is admitted is decided by one of its prereleases, the least one that a lower bound
lets in. That is the lowest prerelease of all, the prerelease at the bound, or the one directly above
it: `p.0` stands directly above a prerelease `p`, and nothing stands between them. Where there is no
such prerelease the bound lets in none at all.
-/

namespace VersionConstraints

/-! ### Neighbours of versions -/

namespace Semver

variable {v w p : Semver} {r : Release}

/-- Regular versions compare by their places. -/
lemma comparedBy_precedence : ComparedBy Semver.compare precedence { v | v.Regular } :=
  fun _ hv _ hw => hv.toComparable.compare_spec hw

structure IsLeastPrereleaseOf (w : Semver) (r : Release) : Prop where
  ordinary : w.Ordinary
  isPrerelease : w.isPrerelease = true
  release_eq : w.release = r
  text_eq : w.text = r.text ++ ['-', '0']
  least : ∀ v : Semver, v.Regular → v.isPrerelease = true → v.release = r →
    NotAfter Semver.compare w v

/-- A version is the prerelease `p.0`, and it is the least of the versions above `p`. -/
structure IsDirectlyAbove (w p : Semver) : Prop where
  ordinary : w.Ordinary
  isPrerelease : w.isPrerelease = true
  release_eq : w.release = p.release
  text_eq : w.text = p.text ++ ['.', '0']
  above : p.compare w = .ok .lt
  least : ∀ v : Semver, v.Regular → p.compare v = .ok .lt → NotAfter Semver.compare w v

/-- No prerelease of a release is below the one with the identifier `0`. -/
lemma isLeastPrereleaseOf_lowestPrerelease (hr : r.Safe) :
    (lowestPrerelease r).IsLeastPrereleaseOf r where
  ordinary := ordinary_lowestPrerelease hr
  isPrerelease := rfl
  release_eq := rfl
  text_eq := rfl
  least v hv hp hrelease := by
    have hzone : .before v.precedence ∈ Cut.zone r :=
      Cut.beside_precedence_mem_zone.mpr ⟨hp, hrelease⟩
    rw [comparedBy_precedence.notAfter_iff (ordinary_lowestPrerelease hr).regular hv,
      precedence_lowestPrerelease]
    exact Cut.before_le_before.mp hzone.1

lemma Regular.ordinary_nextPrerelease (hp : p.Regular) (hprerelease : p.isPrerelease = true)
    (h : p.nextPrerelease = .ok w) : w.Ordinary :=
  ⟨⟨_, h⟩, (hp.of_nextPrerelease hprerelease h).1.words⟩

/-- No version lies between a prerelease and the one with the identifier `0` more. -/
lemma Regular.isDirectlyAbove_nextPrerelease (hp : p.Regular) (hprerelease : p.isPrerelease = true)
    (h : p.nextPrerelease = .ok w) : w.IsDirectlyAbove p := by
  have hordinary := hp.ordinary_nextPrerelease hprerelease h
  have hle (q : Precedence) : w.precedence ≤ q ↔ p.precedence < q :=
    hp.precedence_nextPrerelease hprerelease h
  obtain ⟨-, hrelease, hids⟩ := hp.of_nextPrerelease hprerelease h
  refine ⟨hordinary, ?_, hrelease, ?_, ?_, ?_⟩
  · simp [isPrerelease, hids]
  · have htext : w.text = p.extended.text := by
      rw [text_eq, text_eq, extended, hrelease, hids]
    rw [htext, text_extended hprerelease]
  · rw [comparedBy_precedence.eq_ok_iff hp hordinary.regular]
    exact (hle _).mp le_rfl
  · intro v hv habove
    rw [comparedBy_precedence.eq_ok_iff hp hv] at habove
    exact (comparedBy_precedence.notAfter_iff hordinary.regular hv).mpr ((hle _).mpr habove)

end Semver

/-! ### Bounds that leave no candidate -/

/-- A lower bound that is not a prerelease of a release and excludes the lowest prerelease of it
excludes all of them. -/
lemma Bound.isBelow_eq_false {b : Bound} {r : Release} {v : Semver} (hb : b.version.Regular)
    (hr : r.Safe) (hname : b.prereleaseOf? ≠ some r)
    (hlowest : b.isBelow (Semver.lowestPrerelease r) = .ok false) (hv : v.Regular)
    (hp : v.isPrerelease = true) (hrelease : v.release = r) : b.isBelow v = .ok false := by
  have hnone : Interval.lowestPrerelease? r (some b) = .ok none := by
    rw [Interval.lowestPrerelease?, if_neg hname, hlowest]
    rfl
  have hleast := Interval.lowestPrerelease?_spec (Bound.regular_some.mpr hb) hr hnone
  have hzone : .before v.precedence ∈ Cut.zone r :=
    Cut.beside_precedence_mem_zone.mpr ⟨hp, hrelease⟩
  obtain ⟨below, hbelow, hspec⟩ := Bound.isBelow_spec hb hv.toComparable
  rw [hbelow, Except.ok.injEq, ← Bool.not_eq_true, hspec]
  exact hleast v.precedence hzone

/-! ### Admission -/

namespace Interval

variable {lower upper : Option Bound} {r : Release}

/-- Whether a prerelease lies between two bounds can be told unless the next prerelease is missing.
-/
lemma exists_admitsPrereleaseOf_iff (hlower : Bound.Comparable lower)
    (hupper : Bound.Comparable upper) (hr : r.Safe) :
    (∃ found, admitsPrereleaseOf r lower upper = .ok found) ↔ ¬ LacksPrerelease r lower := by
  have herror (f : Fault) := admitsPrereleaseOf_error_iff hlower hupper hr (f := f)
  cases h : admitsPrereleaseOf r lower upper with
  | ok found => exact iff_of_true ⟨found, rfl⟩ fun hlacks => by simpa [h, hlacks] using herror .tooLong
  | error f => exact iff_of_false nofun (not_not.mpr ((herror f).mp h).2)

/-- For regular bounds and a release of safe numbers, as every version has one, the test for
admission returns unless an exclusive lower bound is a prerelease of the release without room for
another identifier. It is exact: the answer is yes if and only if an ordinary prerelease of the
release is above the lower and below the upper bound. The candidates are the right ones: the lowest
prerelease is the least prerelease of the release, `p.0` is directly above a prerelease `p`, and a
lower bound elsewhere that excludes the lowest prerelease excludes all of them. -/
theorem admitsPrereleaseOf_exact (hlower : Bound.Regular lower) (hupper : Bound.Regular upper)
    (hr : r.Safe) :
    ((∃ found, admitsPrereleaseOf r lower upper = .ok found) ↔ ¬ LacksPrerelease r lower) ∧
    (∀ found, admitsPrereleaseOf r lower upper = .ok found →
      (found = true ↔ ∃ v, IsPrereleaseBetween r lower upper v)) ∧
    (Semver.lowestPrerelease r).IsLeastPrereleaseOf r ∧
    (∀ p w : Semver, p.Regular → p.isPrerelease = true → p.nextPrerelease = .ok w →
      w.IsDirectlyAbove p) ∧
    ∀ b : Bound, b.version.Regular → b.prereleaseOf? ≠ some r →
      b.isBelow (Semver.lowestPrerelease r) = .ok false → ∀ v : Semver, v.Regular →
      v.isPrerelease = true → v.release = r → b.isBelow v = .ok false := by
  refine ⟨exists_admitsPrereleaseOf_iff hlower.comparable hupper.comparable hr, ?_,
    Semver.isLeastPrereleaseOf_lowestPrerelease hr, ?_, ?_⟩
  · intro found h
    exact admitsPrereleaseOf_iff hlower hupper hr h
  · intro p w hp hprerelease hw
    exact hp.isDirectlyAbove_nextPrerelease hprerelease hw
  · intro b hb hname hlowest v hv hprerelease hrelease
    exact Bound.isBelow_eq_false hb hr hname hlowest hv hprerelease hrelease

/-- Above `1.2.0-beta.3` there is a prerelease of `1.2.0` up to `1.2.0-beta.3.0`, but none before. -/
theorem admitsPrereleaseOf_exact_adjacent :
    let p := Semver.sample
    let w := Semver.sample.extended
    (∃ v, IsPrereleaseBetween ⟨1, 2, 0⟩ (some ⟨p, false⟩) (some ⟨w, true⟩) v) ∧
      (¬ ∃ v, IsPrereleaseBetween ⟨1, 2, 0⟩ (some ⟨p, false⟩) (some ⟨w, false⟩) v) ∧
      (Semver.lowestPrerelease ⟨1, 2, 0⟩).IsLeastPrereleaseOf ⟨1, 2, 0⟩ ∧ w.IsDirectlyAbove p ∧
      (Bound.mk (.ofRelease ⟨1, 2, 0⟩) true).isBelow p = .ok false := by
  intro p w
  have hp : p.Regular := Semver.ordinary_sample.regular
  have hnext : p.nextPrerelease = .ok w := by decide +kernel
  have hw : w.Regular := (hp.ordinary_nextPrerelease rfl hnext).regular
  have hr : Release.Safe ⟨1, 2, 0⟩ := by decide
  have hrelease : (Semver.ofRelease ⟨1, 2, 0⟩).Regular := (Semver.ordinary_ofRelease hr).regular
  have hlower : Bound.Regular (some ⟨p, false⟩) := Bound.regular_some.mpr hp
  have hupper (inclusive : Bool) : Bound.Regular (some ⟨w, inclusive⟩) := Bound.regular_some.mpr hw
  have hexact (inclusive : Bool) := admitsPrereleaseOf_exact hlower (hupper inclusive) hr
  obtain ⟨-, hfound, hleast, hdirect, hbound⟩ := hexact true
  refine ⟨(hfound true (by decide +kernel)).mp rfl, ?_, hleast, hdirect p w hp rfl hnext, ?_⟩
  · exact mt ((hexact false).2.1 false (by decide +kernel)).mpr Bool.false_ne_true
  · exact hbound ⟨.ofRelease ⟨1, 2, 0⟩, true⟩ hrelease (by decide) (by decide) p hp rfl rfl

end Interval

end VersionConstraints
