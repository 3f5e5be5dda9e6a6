import VersionConstraints.Range.Basic

/-!
# Constraints

A constraint describes which versions of a dependency are acceptable: all, none, those of a range,
one revision, one branch, or those with one literal text.

A range keeps the text it is displayed with. No intervals make the constraint that nothing
satisfies.
-/

namespace VersionConstraints

/-- Which versions of a dependency are acceptable. -/
inductive Constraint
  | universal
  | empty
  | range (intervals : Range) (text : String)
  | revision (id : String)
  | branch (name : String)
  | literal (text : String)
deriving DecidableEq

namespace Constraint

def ofRange : Range → String → Constraint
  | [], _         => .empty
  | i :: is, text => .range (i :: is) text

/-- A range comes to the empty constraint only if it has no intervals. -/
@[simp] theorem ofRange_eq_empty_iff (is : Range) (text : String) :
    ofRange is text = .empty ↔ is = [] := by
  cases is <;> simp [ofRange]

def isUniversal : Constraint → Bool
  | .universal => true
  | _          => false

def isEmpty : Constraint → Bool
  | .empty => true
  | _      => false

/-- The text a constraint is displayed with. -/
def text : Constraint → String
  | .universal    => "*"
  | .empty        => ""
  | .range _ text => text
  | .revision id  => id
  | .branch name  => name
  | .literal text => text

end Constraint

end VersionConstraints
