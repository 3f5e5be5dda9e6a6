import VersionConstraints.Numeral.Decimal

/-!
# Numbers of limited precision

A number is kept to 53 significant binary digits: larger numbers are rounded to the nearest one
that fits, a half going to the even neighbour. Such a number is written with the fewest decimal
digits that round back to it; below `10 ^ 21` they are padded with zeros, above they are followed
by an exponent.
-/

namespace VersionConstraints

namespace Numeral

/-! ### Rounding -/

/-- How many binary digits a number keeps. -/
def precision : Nat := 53

/-- The largest number up to which every number is kept exactly and is told from its successor. -/
def maxSafe : Nat := 1 <<< precision - 1

/-- The number nearest to a given one that has at most `precision` binary digits; a half goes to the
even neighbour. -/
def round (n : Nat) : Nat :=
  if n < 1 <<< precision then n
  else
    let unit := 1 <<< (n.log2 + 1 - precision)
    let low := n / unit
    let rest := n % unit
    if unit < 2 * rest ∨ (unit = 2 * rest ∧ low % 2 = 1) then (low + 1) * unit else low * unit

/-- A number of few enough digits is kept exactly. -/
theorem round_of_lt {n : Nat} (h : n < 1 <<< precision) : round n = n := by
  rw [round, if_pos h]

/-! ### Fewest digits -/

/-- Of the two multiples of `unit` around `v`, the nearer one that rounds to `v`; a half goes to the
even multiple. -/
def nearestMultiple? (v unit : Nat) : Option Nat :=
  let count := v / unit
  let low := count * unit
  let high := low + unit
  let lowIsNearer := v - low < high - v ∨ (v - low = high - v ∧ count % 2 = 0)
  if round low = v ∧ (round high ≠ v ∨ lowIsNearer) then some low
  else if round high = v then some high
  else none

/-- The number that rounds to `v` and ends in most zeros, of which at most so many are looked
for. -/
def fewestDigits (v : Nat) : Nat → Nat
  | 0         => v
  | zeros + 1 => (nearestMultiple? v (10 ^ (zeros + 1))).getD (fewestDigits v zeros)

/-! ### Writing -/

/-- How many digits a number may have to be written without an exponent. -/
def positionalDigits : Nat := 21

def roundedText (v : Nat) : Text :=
  let ds := text (fewestDigits v ((text v).length - 1))
  if ds.length ≤ positionalDigits then ds
  else
    let exponent := 'e' :: '+' :: text (ds.length - 1)
    match (ds.reverse.dropWhile (· == '0')).reverse with
    | []        => exponent
    | [d]       => d :: exponent
    | d :: more => d :: '.' :: (more ++ exponent)

/-- The text of the number after the one that a run of digits stands for, in limited precision. -/
def successor (ds : Text) : Text :=
  roundedText (round (round (value ds) + 1))

end Numeral

end VersionConstraints
