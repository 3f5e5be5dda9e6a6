/-!
# Searching a position

A test that may fail is asked of positions, to find the first one where it no longer holds. Halving
looks at the middle of a range. Galloping starts from a hint, takes steps that double until one goes
too far, and halves what lies between the last two steps.

For a test that holds up to some position and not from there on, both find that position. For other
tests the answer depends on the positions that are asked, which are fixed here.
-/

namespace VersionConstraints

namespace Search

variable {ε : Type}

/-- The first position from `low` on, up to `high`, where a test does not hold, by halving. -/
def halving (test : Nat → Except ε Bool) (low high : Nat) : Except ε Nat :=
  if _h : low < high then do
    if ← test (low + (high - low) / 2) then halving test (low + (high - low) / 2 + 1) high
    else halving test low (low + (high - low) / 2)
  else .ok high
termination_by high - low

/-- Double a step while a test of it holds and it is below a limit: the last step that held, and the
one after it, which is the limit at most. -/
def doubling (test : Nat → Except ε Bool) (limit last step : Nat) : Except ε (Nat × Nat) :=
  if _h : step < limit then do
    if ← test step then doubling test limit step (2 * step + 1)
    else return (last, step)
  else .ok (last, limit)
termination_by limit - step

/-- The first of `length` positions where a test does not hold, by galloping from a hint. -/
def galloping (test : Nat → Except ε Bool) (length hint : Nat) : Except ε Nat := do
  if ← test hint then
    let (last, step) ← doubling (fun s => test (hint + s)) (length - hint) 0 1
    halving test (hint + last + 1) (hint + step)
  else
    let (last, step) ← doubling (fun s => return !(← test (hint - s))) (hint + 1) 0 1
    halving test (hint + 1 - step) (hint - last)

end Search

end VersionConstraints
