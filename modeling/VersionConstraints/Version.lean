import VersionConstraints.Failure
import VersionConstraints.Semver.Parser

/-!
# Versions

A version of a dependency is a revision, or a named version: a branch, plain text or a semantic
version. A named version may be paired with the revision it is known to stand for.

A constraint does not look at a version but asks for one facet of it, which may be missing.
-/

namespace VersionConstraints

/-- A version that can be paired with a revision. -/
inductive NamedVersion
  /-- A name whose target may move. -/
  | branch (name : String)
  /-- Text without structure or order. -/
  | plain (text : String)
  /-- A semantic version. -/
  | semver (version : Semver)
deriving DecidableEq

/-- A version of a dependency. -/
inductive Version
  | revision (id : String)
  | named (v : NamedVersion)
  | paired (v : NamedVersion) (revision : String)
deriving DecidableEq

/-! ### Reading -/

def Semver.ofString? (s : String) : Option Semver :=
  (Semver.ofText .strict s.toList).toOption

namespace NamedVersion

/-- The semantic version of a text that must be one. -/
def semverOfString (s : String) : Except Failure NamedVersion :=
  match Semver.ofString? s with
  | some v => .ok (.semver v)
  | none   => .error (.notSemver s)

/-- Read the tag of a version: a semantic version if it is one, plain text otherwise. -/
def ofTag (s : String) : NamedVersion :=
  match Semver.ofString? s with
  | some v => .semver v
  | none   => .plain s

def text : NamedVersion → String
  | .branch name => name
  | .plain text  => text
  | .semver v    => String.ofList v.text

end NamedVersion

namespace Version

/-! ### Facets -/

/-- A version without the revision it is paired with. -/
def unpaired : Version → Version
  | .revision id => .revision id
  | .named v     => .named v
  | .paired v _  => .named v

def named? : Version → Option NamedVersion
  | .revision _ => none
  | .named v    => some v
  | .paired v _ => some v

def revision? : Version → Option String
  | .revision id => some id
  | .named _     => none
  | .paired _ id => some id

def branch? (v : Version) : Option String :=
  match v.named? with
  | some (.branch name) => some name
  | _                   => none

def semver? (v : Version) : Option Semver :=
  match v.named? with
  | some (.semver s) => some s
  | _                => none

def literal? (v : Version) : Option String :=
  match v.named? with
  | some (.plain text) => some text
  | _                  => none

/-! ### Text -/

/-- The text of a version; the revision of a pair stands in parentheses. -/
def text : Version → String
  | .revision id => id
  | .named v     => v.text
  | .paired v id => v.text ++ " (" ++ id ++ ")"

end Version

end VersionConstraints
