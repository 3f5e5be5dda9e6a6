import VersionConstraints.Comparator.Basic
import VersionConstraints.Expression.Scan

/-!
# Spacing in range expressions

Before an expression is split at its blanks, the builds of its versions are deleted and the blank
after an operator is closed up: after a comparison wherever a version follows, after a tilde or a
caret always.

The search for operators goes on behind the version it has found, so a `v` inside of a version is
never taken for the lead of another one.
-/

namespace VersionConstraints

namespace Text

/-! ### Builds -/

/-- Delete the builds of a text; the flag tells whether the text begins inside of one. -/
def deleteBuildsFrom : Bool → Text → Text
  | _, []          => []
  | inside, c :: cs =>
    let continues := cs.head?.any isIdentifierChar
    if inside && (isIdentifierChar c || c == '.' && continues) then deleteBuildsFrom true cs
    else if c == '+' && continues then deleteBuildsFrom true cs
    else c :: deleteBuildsFrom false cs

/-- Delete the builds of a text: every plus sign that has identifiers behind it, with them. -/
def deleteBuilds (cs : Text) : Text :=
  deleteBuildsFrom false cs

/-! ### Comparisons -/

def dropBlank : Text → Text
  | ' ' :: cs => cs
  | cs        => cs

theorem length_dropBlank_le (cs : Text) : (dropBlank cs).length ≤ cs.length := by
  unfold dropBlank
  split <;> simp

/-- The text behind an operator, which may have a blank before it. -/
def behindOperator (cs : Text) : Text :=
  (Operator.split (dropBlank cs)).2

theorem length_behindOperator_le (cs : Text) : (behindOperator cs).length ≤ cs.length :=
  Nat.le_trans (Operator.length_split_le _) (length_dropBlank_le cs)

/-- Drop the blank between an operator and its version wherever both are found. The operator may be
missing, and a blank may stand before it: then it is the second of two blanks that is dropped. -/
def closeComparisons (cs : Text) : Text :=
  match _h : Grammar.scanVersion? (dropBlank (behindOperator cs)) with
  | some rest =>
    let operator := cs.take (cs.length - (behindOperator cs).length)
    let version := dropBlank (behindOperator cs)
    operator ++ version.take (version.length - rest.length) ++ closeComparisons rest
  | none      =>
    match cs with
    | []      => []
    | c :: cs => c :: closeComparisons cs
termination_by cs.length
decreasing_by
  · have := Grammar.length_scanVersion? _h
    have := length_dropBlank_le (behindOperator cs)
    have := length_behindOperator_le cs
    omega
  · simp

/-! ### Tildes and carets -/

/-- Drop the blank after each tilde, and a greater-than sign between them. -/
def closeTildes : Text → Text
  | '~' :: '>' :: ' ' :: cs => '~' :: closeTildes cs
  | '~' :: ' ' :: cs        => '~' :: closeTildes cs
  | c :: cs                 => c :: closeTildes cs
  | []                      => []

def closeCarets : Text → Text
  | '^' :: ' ' :: cs => '^' :: closeCarets cs
  | c :: cs          => c :: closeCarets cs
  | []               => []

def closeOperators (cs : Text) : Text :=
  closeCarets (closeTildes (closeComparisons cs))

end Text

end VersionConstraints
