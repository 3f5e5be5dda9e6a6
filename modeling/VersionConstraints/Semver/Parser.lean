import VersionConstraints.Fault
import VersionConstraints.Semver.Basic

/-!
# Reading versions

A version text is measured before anything else, then trimmed and read by its grammar; last, each
component must be a safe number.
-/

namespace VersionConstraints

namespace Semver

def maxUnits : Nat := 256

def componentOfText (c : Component) (ds : Text) : Except Fault Nat :=
  if Numeral.value ds ≤ Numeral.maxSafe then .ok (Numeral.value ds) else .error (.tooLarge c)

def releaseOfTexts (major minor patch : Text) : Except Fault Release := do
  let major ← componentOfText .major major
  let minor ← componentOfText .minor minor
  let patch ← componentOfText .patch patch
  return ⟨major, minor, patch⟩

def ofText (g : Grammar) (cs : Text) : Except Fault Semver :=
  if maxUnits < cs.units16 then .error .tooLong
  else
    match g.read? cs.trim with
    | none   => .error (.notVersion cs)
    | some r => do
      let release ← releaseOfTexts r.major r.minor r.patch
      return ⟨release, r.qualifiers.prerelease.map Identifier.ofText, r.qualifiers.build, g⟩

/-- The release with the next patch, while the patch stays a safe number. -/
def nextPatch (r : Release) : Except Fault Semver :=
  if r.patch < Numeral.maxSafe then .ok (ofRelease { r with patch := r.patch + 1 })
  else .error (.tooLarge .patch)

/-- The prerelease directly above a given one: its text with one more identifier, `0`. -/
def nextPrerelease (v : Semver) : Except Fault Semver :=
  ofText .strict (v.text ++ ['.', '0'])

end Semver

end VersionConstraints
