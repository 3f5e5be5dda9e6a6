import VersionConstraints.Comparator.Basic
import VersionConstraints.Expression.Scan

/-!
# Partial versions

A partial version may end after the major or the minor number, and a number may be a wildcard; both
leave the number open. Numbers are kept as the digits they are written with. Only a version with all
three parts can have qualifiers, and the build is not kept.
-/

namespace VersionConstraints

/-- A version some of whose numbers may be open. -/
structure Partial where
  major : Option Text
  minor : Option Text
  patch : Option Text
  prerelease : List Text

namespace Partial

variable (g : Grammar)

/-- Read one number, open if it is a wildcard. -/
def part? (cs : Text) : Option (Option Text) :=
  match cs with
  | [c] => if isWildcard c then some none else if g.isNumeral [c] then some (some [c]) else none
  | cs  => if g.isNumeral cs then some (some cs) else none

/-- Read the patch and the qualifiers behind it. -/
def patch? (cs : Text) : Option (Option Text × List Text) :=
  match cs with
  | []        => none
  | c :: rest =>
    if isWildcard c then (g.qualifiers? rest).map fun q => (none, q.prerelease)
    else (g.patch? cs).map fun p => (some p.1, p.2.prerelease)

/-- Read a partial version; white space, `v` and `=` may stand before it in either grammar. -/
def ofText? (cs : Text) : Option Partial :=
  match Text.cut '.' (cs.dropWhile isLead) with
  | (major, none)      => do return ⟨← part? g major, none, none, []⟩
  | (major, some rest) =>
    match Text.cut '.' rest with
    | (minor, none)      => do return ⟨← part? g major, ← part? g minor, none, []⟩
    | (minor, some rest) => do
      let major ← part? g major
      let minor ← part? g minor
      let (patch, prerelease) ← patch? g rest
      return ⟨major, minor, patch, prerelease⟩

end Partial

end VersionConstraints
