import VersionConstraints.Expression.Shorthand
import VersionConstraints.Expression.Spacing

/-!
# The comparators of an alternative

An alternative is written out step by step until it holds nothing but comparators: builds are
deleted, a hyphen becomes two comparators, operators are closed up, and each piece between blanks is
expanded. Then the comparators are read. In the loose grammar a piece that is no comparator is left
out; in the strict one it is a fault.
-/

namespace VersionConstraints

namespace Expression

/-! ### Hyphens -/

def splitHyphen? : Text → Option (Text × Text)
  | []                      => none
  | ' ' :: '-' :: ' ' :: cs => some ([], cs)
  | c :: cs                 => (splitHyphen? cs).map fun (low, high) => (c :: low, high)

def dropLastBlank (cs : Text) : Text :=
  if cs.getLast? = some ' ' then cs.dropLast else cs

/-- The two comparators of a text that is a hyphen between partial versions. -/
def hyphen? (g : Grammar) (cs : Text) : Option Text := do
  let (low, high) ← splitHyphen? cs
  let low := Text.dropBlank low
  let high := dropLastBlank high
  let lowVersion ← Partial.ofText? g low
  let highVersion ← Partial.ofText? g high
  return (bothText (lowVersion.hyphenFrom low) (highVersion.hyphenTo high)).trim

/-! ### Pieces -/

/-- What a star leaves of a text that begins with it, behind an operator or alone. -/
def starAtFront? (cs : Text) : Option Text :=
  match (Operator.split cs).2 with
  | '*' :: rest => some rest
  | _           => none

/-- Delete the first star, with the operator in front of it. -/
def deleteStar : Text → Text
  | []      => []
  | c :: cs => (starAtFront? (c :: cs)).getD (c :: deleteStar cs)

def caret? (g : Grammar) : Text → Option Text
  | '^' :: cs => (Partial.ofText? g cs).map Partial.caret
  | _         => none

/-- The comparators of a tilde, which may have a greater-than sign behind it. -/
def tilde? (g : Grammar) : Text → Option Text
  | '~' :: '>' :: cs => (Partial.ofText? g cs).map Partial.tilde
  | '~' :: cs        => (Partial.ofText? g cs).map Partial.tilde
  | _                => none

def open? (g : Grammar) (cs : Text) : Option Text :=
  (Partial.ofText? g (Operator.split cs).2).bind (Partial.open? (Operator.split cs).1)

def expand (g : Grammar) (cs : Text) : Text :=
  match caret? g cs <|> tilde? g cs with
  | some comparators => comparators
  | none             => deleteStar ((open? g cs).getD cs)

/-! ### Alternatives -/

/-- Write out an alternative. -/
def writtenOut (g : Grammar) (cs : Text) : Text :=
  let cs := cs.deleteBuilds
  let cs := ((hyphen? g cs).getD cs).closeOperators
  [' '].intercalate ((cs.splitOn ' ').map (expand g))

/-- The comparator that the lowest release of all is included, which restricts nothing. -/
def fromZeroText : Text := fromText zeroText zeroText zeroText

def comparatorTexts (g : Grammar) (cs : Text) : List Text :=
  let texts := (writtenOut g cs).fields.map fun t => if t = fromZeroText then [] else t
  match g with
  | .strict => texts
  | .loose  => texts.filter fun t => t.isEmpty || Grammar.accepts .loose (Operator.split t).2

/-- Read an alternative. In the loose grammar it may come out empty. -/
def alternative (g : Grammar) (cs : Text) : Except Fault Alternative :=
  return Alternative.simplify (← (comparatorTexts g cs).mapM (Comparator.ofText g))

end Expression

end VersionConstraints
