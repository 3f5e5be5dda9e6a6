import VersionConstraints.Expression.Alternatives
import VersionConstraints.Range.Basic

/-!
# Reading ranges

A range expression is read twice: first as alternatives, of which only the canonical text is kept,
and then that text again, whose alternatives are folded into intervals. What is wrong at the first
reading means that the text is no range expression; what is wrong later is a fault.
-/

namespace VersionConstraints

namespace Range

/-- The intervals of alternatives, as far as there are any. -/
def intervals : List Alternative → Except Fault (List Interval)
  | []      => .ok []
  | a :: as => do
    let i ← Interval.ofAlternative a
    let is ← intervals as
    return i.toList ++ is

def ofAlternatives (as : List Alternative) : Except Fault Range := do
  canonical (← intervals as)

/-- Read a range expression; none when the text is not one. -/
def ofText (g : Grammar) (cs : Text) : Except Fault (Option Range) :=
  match (Expression.withoutCommas? cs.trim).bind (Expression.canonicalText? g) with
  | none   => .ok none
  | some t => do return some (← ofAlternatives (← Expression.alternatives g t))

end Range

end VersionConstraints
