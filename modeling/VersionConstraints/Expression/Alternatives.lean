import VersionConstraints.Expression.Comparators

/-!
# The alternatives of a range expression

An expression is a list of alternatives with double bars between them. The alternatives that nothing
satisfies are dropped while others are left, and an unrestricted one stands for all.

The canonical text of an expression lists the comparators that were read.
-/

namespace VersionConstraints

namespace Expression

def simplify (as : List Alternative) : List Alternative :=
  if as.length ≤ 1 then as
  else
    match as.filter (!·.isNull) with
    | []   => as.take 1
    | [a]  => [a]
    | kept => (kept.find? Alternative.isUnrestricted).elim kept ([·])

def alternatives (g : Grammar) (cs : Text) : Except Fault (List Alternative) := do
  let all ← cs.normalize.splitBars.mapM fun part => alternative g part.trim
  let kept := all.filter (!·.isEmpty)
  if kept.isEmpty then .error (.notRange cs.normalize) else .ok (simplify kept)

def alternativesText (as : List Alternative) : Text :=
  ['|', '|'].intercalate (as.map Alternative.text)

/-- The canonical text of a range expression; none when it cannot be read. -/
def canonicalText? (g : Grammar) (cs : Text) : Option Text :=
  match alternatives g cs with
  | .error _ => none
  | .ok as   =>
    let text := alternativesText as
    some (if text.isEmpty then ['*'] else text)

/-! ### Commas -/

/-- The operands between the commas of an alternative, with spaces for the commas. None when a comma
leaves an operand blank. -/
def joinOperands? (cs : Text) : Option Text :=
  let operands := (cs.splitOn ',').map Text.trim
  if 1 < operands.length ∧ operands.any List.isEmpty then none
  else some ([' '].intercalate operands)

def withoutCommas? (cs : Text) : Option Text :=
  (cs.splitBars.mapM joinOperands?).map fun parts => [' ', '|', '|', ' '].intercalate parts

end Expression

end VersionConstraints
