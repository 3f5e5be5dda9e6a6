import VersionConstraints.Semver.Grammar
import VersionConstraints.Semver.Identifier

/-!
# Semantic versions

A semantic version has a release of three numbers, the identifiers of a prerelease, and a build
that no comparison looks at. It remembers the grammar it was read with, because a comparison reads
a loose version once more, strictly.
-/

namespace VersionConstraints

/-! ### Releases -/

/-- The three numbers of a version. -/
structure Release where
  major : Nat
  minor : Nat
  patch : Nat
deriving DecidableEq

namespace Release

/-- Releases compare number by number. -/
instance : Ord Release where
  compare := compareLex (compareOn major) (compareLex (compareOn minor) (compareOn patch))

/-- The numbers of a release with dots between them. -/
def text (r : Release) : Text :=
  Numeral.text r.major ++ '.' :: (Numeral.text r.minor ++ '.' :: Numeral.text r.patch)

def zero : Release := ⟨0, 0, 0⟩

end Release

/-! ### Versions -/

/-- A semantic version. -/
structure Semver where
  release : Release
  prerelease : List Identifier
  build : List Text
  grammar : Grammar
deriving DecidableEq

namespace Semver

def ofRelease (r : Release) : Semver :=
  ⟨r, [], [], .strict⟩

def lowestPrerelease (r : Release) : Semver :=
  ⟨r, [.number 0], [], .strict⟩

def isPrerelease (v : Semver) : Bool :=
  !v.prerelease.isEmpty

/-- The canonical text of a version: the release and the prerelease, without the build. -/
def text (v : Semver) : Text :=
  if v.isPrerelease then
    v.release.text ++ '-' :: ['.'].intercalate (v.prerelease.map Identifier.text)
  else v.release.text

@[simp] theorem text_ofRelease (r : Release) : (ofRelease r).text = r.text := rfl

end Semver

end VersionConstraints
