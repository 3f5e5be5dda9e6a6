import VersionConstraints.Semver.Order

/-!
# Comparators

A comparator is an operator with a version, or the unrestricted comparator that every version
satisfies. A list of comparators that must hold together is an alternative of a range expression.
-/

namespace VersionConstraints

/-! ### Operators -/

/-- How a version must lie to the version of a comparator. -/
inductive Operator
  | equal
  | below
  | atMost
  | above
  | atLeast
deriving DecidableEq

namespace Operator

/-- The text of an operator; equality is not written. -/
def text : Operator → Text
  | .equal   => []
  | .below   => ['<']
  | .atMost  => ['<', '=']
  | .above   => ['>']
  | .atLeast => ['>', '=']

/-- Split a text into the operator in front and the rest. No operator is equality, as `=` is. -/
def split : Text → Operator × Text
  | '<' :: '=' :: cs => (.atMost, cs)
  | '>' :: '=' :: cs => (.atLeast, cs)
  | '<' :: cs        => (.below, cs)
  | '>' :: cs        => (.above, cs)
  | '=' :: cs        => (.equal, cs)
  | cs               => (.equal, cs)

theorem length_split_le (cs : Text) : (split cs).2.length ≤ cs.length := by
  unfold split
  split <;> simp <;> omega

end Operator

/-! ### Comparators -/

/-- One condition on a version. -/
inductive Comparator
  | any
  | bounded (operator : Operator) (version : Semver)
deriving DecidableEq

namespace Comparator

/-- The text of a comparator; the unrestricted one has none. -/
def text : Comparator → Text
  | .any         => []
  | .bounded o v => o.text ++ v.text

def isAny : Comparator → Bool
  | .any         => true
  | .bounded _ _ => false

/-- Whether a comparator is written as below the lowest version of all, so that nothing can
satisfy it. -/
def isNull (c : Comparator) : Bool :=
  c.text == ['<', '0', '.', '0', '.', '0', '-', '0']

/-- The release of a comparator whose version is a prerelease. -/
def prereleaseOf? : Comparator → Option Release
  | .any         => none
  | .bounded _ v => if v.isPrerelease then some v.release else none

/-- Read a comparator: an operator and a version with nothing between them, or no text at all. -/
def ofText (g : Grammar) (cs : Text) : Except Fault Comparator :=
  if cs = [] then .ok .any
  else if g.accepts (Operator.split cs).2 then do
    let v ← Semver.ofText g (Operator.split cs).2
    return .bounded (Operator.split cs).1 v
  else .error (.notComparator cs)

def distinct : List Comparator → List Comparator
  | []      => []
  | c :: cs => c :: (distinct cs).filter (·.text != c.text)

end Comparator

/-! ### Alternatives -/

/-- Comparators that must hold together. -/
abbrev Alternative := List Comparator

namespace Alternative

/-- An alternative without superfluous comparators: one that nothing satisfies stands for all, and
an unrestricted one is dropped beside others. -/
def simplify (cs : List Comparator) : Alternative :=
  match cs.find? Comparator.isNull with
  | some c => [c]
  | none   =>
    let ds := Comparator.distinct cs
    if 1 < ds.length then ds.filter (!·.isAny) else ds

def text (a : Alternative) : Text :=
  [' '].intercalate (a.map Comparator.text)

/-- Whether the first comparator is one that nothing satisfies. -/
def isNull (a : Alternative) : Bool :=
  a.head?.any Comparator.isNull

def isUnrestricted (a : Alternative) : Bool :=
  a == [.any]

end Alternative

end VersionConstraints
