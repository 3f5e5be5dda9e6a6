import VersionConstraints.Semver.Parser

/-!
# Comparing versions

Versions compare by release; a release comes after all its prereleases, and prereleases compare
identifier by identifier. `Semver.order` is this comparison. `Semver.compare` is the one that the
library uses: it first reads a loose operand again, strictly, from its canonical text, and fails
when that is not a strict version.
-/

namespace VersionConstraints

namespace Semver

/-- How two prereleases of one release compare; none comes last. -/
def prereleaseOrder : List Identifier → List Identifier → Ordering
  | [], []         => .eq
  | [], _ :: _     => .gt
  | _ :: _, []     => .lt
  | a :: as, b :: bs => Identifier.listOrder (a :: as) (b :: bs)

def order (a b : Semver) : Ordering :=
  (Ord.compare a.release b.release).then (prereleaseOrder a.prerelease b.prerelease)

/-- A version as the strict grammar reads its canonical text. -/
def strictly (v : Semver) : Except Fault Semver :=
  match v.grammar with
  | .strict => .ok v
  | .loose  => ofText .strict v.text

/-- How two versions compare, the first one being read strictly first. -/
def compare (a b : Semver) : Except Fault Ordering := do
  let a ← a.strictly
  let b ← b.strictly
  return a.order b

end Semver

end VersionConstraints
