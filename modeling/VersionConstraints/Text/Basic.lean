/-!
# Texts

A text is the list of its characters. Everything that is read or written here is built from such
lists; strings appear only where the library is called.
-/

namespace VersionConstraints

/-- A text, as the list of its characters. -/
abbrev Text := List Char

namespace Text

/-! ### Length -/

/-- How many 16-bit units a text takes: a character outside the basic plane takes two. -/
def units16 : Text → Nat
  | []      => 0
  | c :: cs => (if c.toNat < 0x10000 then 1 else 2) + units16 cs

/-! ### Dropping a bounded run -/

/-- Drop the leading characters of a class, but no more than a given number of them. -/
def dropUpTo (p : Char → Bool) : Nat → Text → Text
  | 0, cs          => cs
  | _ + 1, []      => []
  | n + 1, c :: cs => if p c then dropUpTo p n cs else c :: cs

theorem length_dropUpTo_le (p : Char → Bool) (n : Nat) (cs : Text) :
    (dropUpTo p n cs).length ≤ cs.length := by
  induction n generalizing cs with
  | zero => simp [dropUpTo]
  | succ n ih =>
    cases cs with
    | nil => simp [dropUpTo]
    | cons c cs =>
      simp only [dropUpTo]
      split
      · exact Nat.le_succ_of_le (ih cs)
      · simp

/-! ### Cutting at a character -/

/-- The part before the first occurrence of a character, and the part after it if it occurs. -/
def cut (sep : Char) (cs : Text) : Text × Option Text :=
  (cs.takeWhile (· != sep), (cs.dropWhile (· != sep)).tail?)

/-- The parts of a text between its double bars, found from the left. -/
def splitBars : Text → List Text
  | []               => [[]]
  | '|' :: '|' :: cs => [] :: splitBars cs
  | c :: cs          => (splitBars cs).modifyHead (c :: ·)

end Text

end VersionConstraints
