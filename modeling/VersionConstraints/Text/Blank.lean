import VersionConstraints.Text.Basic

/-!
# White space

White space is fixed by a table of code points. It separates the words of a range expression, and
it may surround a version, an alternative or an operand.
-/

namespace VersionConstraints

/-! ### The class -/

/-- The code points that count as white space, as closed ranges. -/
def blankRanges : List (Nat × Nat) :=
  [(0x9, 0xD), (0x20, 0x20), (0xA0, 0xA0), (0x1680, 0x1680), (0x2000, 0x200A), (0x2028, 0x2029),
    (0x202F, 0x202F), (0x205F, 0x205F), (0x3000, 0x3000), (0xFEFF, 0xFEFF)]

def isBlank (c : Char) : Bool :=
  blankRanges.any fun r => r.1 ≤ c.toNat && c.toNat ≤ r.2

namespace Text

/-! ### Trimming -/

def trim (cs : Text) : Text :=
  ((cs.dropWhile isBlank).reverse.dropWhile isBlank).reverse

/-! ### Words -/

/-- The words of a text: the non-empty parts between white space. -/
def words (cs : Text) : List Text :=
  (cs.splitOnP isBlank).filter (· ≠ [])

/-- A text with one space between its words and none around them. -/
def normalize (cs : Text) : Text :=
  [' '].intercalate cs.words

/-- Drop the empty parts that have a part behind them. -/
def dropInnerEmpty : List Text → List Text
  | []           => []
  | [last]       => [last]
  | p :: q :: ps => if p = [] then dropInnerEmpty (q :: ps) else p :: dropInnerEmpty (q :: ps)

/-- The parts of a text between runs of white space. A run at either end leaves an empty part there,
which `words` would not. -/
def fields (cs : Text) : List Text :=
  match cs.splitOnP isBlank with
  | []            => []
  | first :: rest => first :: dropInnerEmpty rest

end Text

end VersionConstraints
