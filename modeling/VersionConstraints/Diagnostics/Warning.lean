/-!
# Warnings

A warning flags a requirement whose text probably holds a mistake. It does not change what the
constraint accepts.
-/

namespace VersionConstraints

/-- What may be wrong with the text of a requirement. -/
inductive Warning
  /-- The text is no range expression and was taken literally. -/
  | literalFallback (text : String)
  /-- The text is a range expression that no version satisfies. -/
  | unsatisfiable (text : String)
deriving DecidableEq

namespace Warning

def literalFallbackCode : String := "W101"

def unsatisfiableCode : String := "W102"

def code : Warning → String
  | .literalFallback _ => literalFallbackCode
  | .unsatisfiable _   => unsatisfiableCode

def text : Warning → String
  | .literalFallback text => text
  | .unsatisfiable text   => text

def message : Warning → String
  | .literalFallback text =>
    "\"" ++ text ++ "\" is not a valid version range; matching it as a literal version"
  | .unsatisfiable text   => "\"" ++ text ++ "\" admits no version"

/-- The line that is printed for a warning. -/
def line (w : Warning) : String :=
  "[" ++ w.code ++ "] " ++ w.message

end Warning

end VersionConstraints
