import VersionConstraints.Semver.Order

/-!
# Ordinary versions

A version is ordinary when the strict grammar reads it from some text and each of its identifiers
that is all digits is a number. A comparison of ordinary versions does not fail, and it tells any
two identifiers apart: only a numeral that stays a word can compare as equal to another one.
-/

namespace VersionConstraints

namespace Semver

/-- Whether a version is read strictly and keeps no numeral as a word. -/
def Ordinary (v : Semver) : Prop :=
  (∃ t, ofText .strict t = .ok v) ∧
    ∀ t, Identifier.word t ∈ v.prerelease → Numeral.isDigits t = false

/-- A version keeps the grammar that it was read with. -/
theorem grammar_of_ofText {g : Grammar} {t : Text} {v : Semver} (h : ofText g t = .ok v) :
    v.grammar = g := by
  unfold ofText at h
  split at h
  · cases h
  · split at h
    · cases h
    · next r _ =>
      cases hr : releaseOfTexts r.major r.minor r.patch with
      | error f    => simp [hr, bind, Except.bind] at h
      | ok release =>
        simp only [hr, bind, Except.bind, pure, Except.pure, Except.ok.injEq] at h
        rw [← h]

end Semver

end VersionConstraints
