import VersionConstraints.Diagnostics.Warning
import VersionConstraints.Semver.Grammar

/-!
# Options

The options of a requirement choose the grammar of its text and who is told about warnings: the
caller, if it asks for that, or else the console, if the environment asks for that.
-/

namespace VersionConstraints

abbrev Environment := List (String × String)

def Environment.wantsWarnings (env : Environment) : Bool :=
  match env.lookup "VERSET_WARNINGS" with
  | some value => value.toLower = "1" || value.toLower = "true"
  | none       => false

/-- Who is told about warnings. -/
inductive Reporter
  | caller
  | console
  | nobody
deriving DecidableEq

namespace Reporter

def received (r : Reporter) (ws : List Warning) : List Warning :=
  match r with
  | .caller => ws
  | _       => []

def printed (r : Reporter) (ws : List Warning) : List String :=
  match r with
  | .console => ws.map Warning.line
  | _        => []

end Reporter

/-- The options of a requirement; what is left open has a default. -/
structure Options where
  loose : Option Bool
  callerListens : Bool

namespace Options

/-- The grammar that options choose; it is strict unless they ask for the loose one. -/
def grammar (o : Options) : Grammar :=
  if o.loose = some true then .loose else .strict

/-- Who is told about warnings under options and an environment. -/
def reporter (o : Options) (env : Environment) : Reporter :=
  if o.callerListens then .caller
  else if env.wantsWarnings then .console
  else .nobody

end Options

end VersionConstraints
