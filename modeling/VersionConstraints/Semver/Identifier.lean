import VersionConstraints.Numeral.Precision

/-!
# Prerelease identifiers

An identifier is a number or a word. Digits that stand for a number below the largest safe one are
read as that number; all other identifiers, longer runs of digits among them, stay words.

Numerals come before all other words. Two numerals compare by value in limited precision, so two
different ones can compare as equal; other words compare by code points.
-/

namespace VersionConstraints

/-- One identifier of a prerelease. -/
inductive Identifier
  | number (value : Nat)
  | word (text : Text)
deriving DecidableEq

namespace Identifier

/-- The text of an identifier; a number is written in plain digits. -/
def text : Identifier → Text
  | .number n => Numeral.text n
  | .word t   => t

def ofText (t : Text) : Identifier :=
  if Numeral.isDigits t ∧ Numeral.value t < Numeral.maxSafe then .number (Numeral.value t)
  else .word t

/-- The value by which a numeral compares; no value for a word that is not all digits. -/
def rank? : Identifier → Option Nat
  | .number n => some (Numeral.round n)
  | .word t   => if Numeral.isDigits t then some (Numeral.round (Numeral.value t)) else none

def order (a b : Identifier) : Ordering :=
  match a.rank?, b.rank? with
  | some m, some n => compare m n
  | some _, none   => .lt
  | none, some _   => .gt
  | none, none     => compare a.text b.text

/-- How two lists of identifiers compare: the first place where they differ decides, even when the
two identifiers there compare as equal. A list that runs out comes first. -/
def listOrder : List Identifier → List Identifier → Ordering
  | [], []           => .eq
  | [], _ :: _       => .lt
  | _ :: _, []       => .gt
  | a :: as, b :: bs => if a = b then listOrder as bs else a.order b

/-- A list of identifiers compares as equal to itself. -/
@[simp] theorem listOrder_self (as : List Identifier) : listOrder as as = .eq := by
  induction as with
  | nil => rfl
  | cons a as ih => simp [listOrder, ih]

end Identifier

end VersionConstraints
