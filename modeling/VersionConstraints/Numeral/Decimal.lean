import VersionConstraints.Text.Basic

/-!
# Decimal numerals

Reading and writing of natural numbers in decimal digits.
-/

namespace VersionConstraints

namespace Numeral

/-- The decimal digits of a number, without leading zeros. -/
def text (n : Nat) : Text :=
  Nat.toDigits 10 n

/-- The number that a run of decimal digits stands for. -/
def value (ds : Text) : Nat :=
  Nat.ofDigitChars 10 ds 0

/-- The digits of a number stand for it. -/
@[simp] theorem value_text (n : Nat) : value (text n) = n :=
  Nat.ofDigitChars_toDigits (by decide) (by decide)

/-- Whether a text consists of decimal digits, at least one. -/
def isDigits (cs : Text) : Bool :=
  !cs.isEmpty && cs.all Char.isDigit

end Numeral

end VersionConstraints
