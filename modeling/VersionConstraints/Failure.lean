import VersionConstraints.Fault

/-!
# Failures

A failure belongs to one of two families, constraints and versions, or is a general one; it carries
a code by which callers tell it from others. Two failures have a form of their own: a requirement of
an unknown kind, and a text that is not a semantic version.

A malformed range, disjoint constraints and a missing facet are values and not failures.
-/

namespace VersionConstraints

/-- A failure with a code. -/
inductive Failure
  /-- A failure of no family. -/
  | general (message code : String)
  /-- A failure to construct a constraint. -/
  | constraint (message code : String)
  /-- A constraint was asked for by an unknown kind. -/
  | unknownKind (kind text : String)
  /-- A failure of a version value. -/
  | version (message code : String)
  /-- A text that must be a semantic version is not one. -/
  | notSemver (input : String)
deriving DecidableEq

namespace Failure

def message : Failure → String
  | .general message _     => message
  | .constraint message _  => message
  | .unknownKind kind text => "Unknown constraint kind \"" ++ kind ++ "\" for \"" ++ text ++ "\""
  | .version message _     => message
  | .notSemver input       => "Invalid semantic version: \"" ++ input ++ "\""

def code : Failure → String
  | .general _ code    => code
  | .constraint _ code => code
  | .unknownKind _ _   => "UNKNOWN_CONSTRAINT_KIND"
  | .version _ code    => code
  | .notSemver _       => "VERSION_PARSE_ERROR"

def isConstraint : Failure → Bool
  | .constraint _ _ | .unknownKind _ _ => true
  | _                                  => false

def isVersion : Failure → Bool
  | .version _ _ | .notSemver _ => true
  | _                           => false

/-- The kind that was asked for, where it was unknown. -/
def kind? : Failure → Option String
  | .unknownKind kind _ => some kind
  | _                   => none

/-- The text of the requirement whose kind was unknown. -/
def text? : Failure → Option String
  | .unknownKind _ text => some text
  | _                   => none

/-- The text that was not a semantic version. -/
def input? : Failure → Option String
  | .notSemver input => some input
  | _                => none

end Failure

/-! ### Errors -/

/-- What an operation can end with: a failure of its own, or a fault in a text that it reads. -/
inductive Error
  | failure (f : Failure)
  | fault (f : Fault)
deriving DecidableEq

def Error.message : Error → String
  | .failure f => f.message
  | .fault f   => f.message

/-- A result whose faults are errors. -/
def Error.ofFault {α : Type} : Except Fault α → Except Error α
  | .ok a    => .ok a
  | .error f => .error (.fault f)

end VersionConstraints
