import VersionConstraints.Constraint.Algebra
import VersionConstraints.Diagnostics.Warning
import VersionConstraints.Range.Parser

/-!
# Requirements

A manifest declares a requirement as a kind and a text. An unknown kind is a failure. A text of the
version kind that is no range expression is taken literally, because a manifest may ask for a tag
that is not a semantic version.

A version that was found is pinned by the constraint that accepts exactly that version.
-/

namespace VersionConstraints

/-! ### Kinds -/

/-- The kinds of requirement that a manifest can declare. -/
inductive RequirementKind
  | branch
  | revision
  | version
deriving DecidableEq

namespace RequirementKind

def all : List RequirementKind := [.branch, .revision, .version]

def name : RequirementKind → String
  | .branch   => "branch"
  | .revision => "revision"
  | .version  => "version"

def ofName? (s : String) : Option RequirementKind :=
  all.find? (·.name = s)

end RequirementKind

/-! ### Requirements -/

/-- What a requirement comes to. -/
structure Requirement where
  constraint : Constraint
  warnings : List Warning
deriving DecidableEq

namespace Requirement

/-- The text a range is displayed with: its source without white space around it, or a star when
nothing is left. -/
def displayText (s : String) : String :=
  if (Text.trim s.toList).isEmpty then "*" else String.ofList (Text.trim s.toList)

def ofVersionText (g : Grammar) (s : String) : Except Fault Requirement := do
  match ← Range.ofText g s.toList with
  | none    => return ⟨.literal s, [.literalFallback s]⟩
  | some is =>
    let c := Constraint.ofRange is (displayText s)
    return ⟨c, if c.isEmpty then [.unsatisfiable s] else []⟩

/-- The requirement of a kind and a text. -/
def ofDeclaration (kind s : String) (g : Grammar) : Except Error Requirement :=
  match RequirementKind.ofName? kind with
  | none           => .error (.failure (.unknownKind kind s))
  | some .branch   => .ok ⟨.branch s, []⟩
  | some .revision => .ok ⟨.revision s, []⟩
  | some .version  => Error.ofFault (ofVersionText g s)

end Requirement

/-! ### Pins -/

/-- The constraint that accepts exactly a given version; a pair is pinned by its revision. -/
def Constraint.pin : Version → Constraint
  | .revision id            => .revision id
  | .named (.branch name)   => .branch name
  | .named (.plain text)    => .literal text
  | .named (.semver v)      => .ofRange [Interval.exact v] (String.ofList v.text)
  | .paired _ id            => .revision id

end VersionConstraints
