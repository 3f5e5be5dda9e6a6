import VersionConstraints.Text.Basic

/-!
# Faults

What can be wrong with a text that is read as a version, a comparator or a range expression, and
the message for each case.
-/

namespace VersionConstraints

/-- The three numbers of a release. -/
inductive Component
  | major
  | minor
  | patch
deriving DecidableEq

def Component.name : Component → String
  | .major => "major"
  | .minor => "minor"
  | .patch => "patch"

/-- Why a text cannot be read. -/
inductive Fault
  /-- A version takes more than 256 units. -/
  | tooLong
  /-- The text does not have the form of a version. -/
  | notVersion (text : Text)
  /-- A component is above the largest safe number. -/
  | tooLarge (component : Component)
  /-- The text does not have the form of a comparator. -/
  | notComparator (text : Text)
  /-- No alternative of the text is left. -/
  | notRange (text : Text)
deriving DecidableEq

def Fault.message : Fault → String
  | .tooLong            => "version is longer than 256 characters"
  | .notVersion text    => "Invalid Version: " ++ String.ofList text
  | .tooLarge component => "Invalid " ++ component.name ++ " version"
  | .notComparator text => "Invalid comparator: " ++ String.ofList text
  | .notRange text      => "Invalid SemVer Range: " ++ String.ofList text

end VersionConstraints
