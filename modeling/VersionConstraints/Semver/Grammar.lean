import VersionConstraints.Text.Blank
import VersionConstraints.Numeral.Decimal

/-!
# The two grammars of versions

A version text has a lead, three numerals between dots, and the qualifiers: an optional prerelease
and an optional build, each a list of identifiers between dots.

The strict grammar takes at most one `v` as the lead, no leading zeros, and a hyphen before the
prerelease. The loose grammar takes any run of `v`, `=` and white space, leading zeros, and a
prerelease without the hyphen; so a numeral and the prerelease behind it may have no mark between
them, and the numeral is then the longest one that leaves a readable rest.
-/

namespace VersionConstraints

/-- Which version texts are taken. -/
inductive Grammar
  | strict
  | loose
deriving DecidableEq

/-! ### Characters and identifiers -/

/-- A letter of an identifier, or the hyphen, which makes a word like a letter does. -/
def isLetterOrHyphen (c : Char) : Bool := c.isAlpha || c == '-'

def isIdentifierChar (c : Char) : Bool := c.isAlphanum || c == '-'

def isLead (c : Char) : Bool := c == 'v' || c == '=' || isBlank c

/-- How many digits may open a word. -/
def maxLeadingDigits : Nat := 256

/-- How many characters may follow the first letter of a word, and how many a build identifier may
have. -/
def maxIdentifierChars : Nat := 250

/-- Whether a text is a word: some digits, a letter or hyphen, and identifier characters. -/
def isWord (cs : Text) : Bool :=
  match Text.dropUpTo Char.isDigit maxLeadingDigits cs with
  | []        => false
  | c :: rest => isLetterOrHyphen c && rest.all isIdentifierChar && rest.length ≤ maxIdentifierChars

def isBuildIdentifier (cs : Text) : Bool :=
  !cs.isEmpty && cs.all isIdentifierChar && cs.length ≤ maxIdentifierChars

namespace Grammar

def maxDigits : Grammar → Nat
  | .strict => 257
  | .loose  => 256

/-- Whether a text is a numeral. A strict one has no leading zero. -/
def isNumeral (g : Grammar) (cs : Text) : Bool :=
  Numeral.isDigits cs && cs.length ≤ g.maxDigits &&
    match g with
    | .strict => cs.head? != some '0' || cs == ['0']
    | .loose  => true

def isIdentifier (g : Grammar) (cs : Text) : Bool :=
  isWord cs || g.isNumeral cs

/-! ### Qualifiers -/

/-- What may follow the three numerals of a version. -/
structure Qualifiers where
  prerelease : List Text
  build : List Text

/-- The identifiers between the dots of a text, if all of them are identifiers. -/
def identifiers? (g : Grammar) (cs : Text) : Option (List Text) :=
  let ids := cs.splitOn '.'
  if ids.all g.isIdentifier then some ids else none

/-- Read a prerelease with its hyphen; nothing is no prerelease. In the loose grammar the hyphen may
be missing, and one that stands there is part of the first identifier if nothing else fits. -/
def prerelease? : Grammar → Text → Option (List Text)
  | _, []              => some []
  | .strict, '-' :: cs => identifiers? .strict cs
  | .strict, _ :: _    => none
  | .loose, '-' :: cs  => identifiers? .loose cs <|> identifiers? .loose ('-' :: cs)
  | .loose, c :: cs    => identifiers? .loose (c :: cs)

/-- Read the build that follows a plus sign, if there is one. -/
def build? : Option Text → Option (List Text)
  | none    => some []
  | some cs =>
    let ids := cs.splitOn '.'
    if ids.all isBuildIdentifier then some ids else none

def qualifiers? (g : Grammar) (cs : Text) : Option Qualifiers :=
  match g.prerelease? (cs.cut '+').1, build? (cs.cut '+').2 with
  | some prerelease, some build => some ⟨prerelease, build⟩
  | _, _                        => none

/-! ### Version texts -/

/-- Split a text into a numeral of at most `n` digits and qualifiers, the numeral as long as
possible. -/
def patchUpTo? (g : Grammar) (cs : Text) : Nat → Option (Text × Qualifiers)
  | 0     => none
  | n + 1 =>
    match if g.isNumeral (cs.take (n + 1)) then g.qualifiers? (cs.drop (n + 1)) else none with
    | some qualifiers => some (cs.take (n + 1), qualifiers)
    | none            => g.patchUpTo? cs n

/-- Split a text into a numeral and qualifiers, the numeral as long as possible. -/
def patch? (g : Grammar) (cs : Text) : Option (Text × Qualifiers) :=
  g.patchUpTo? cs (min (cs.takeWhile Char.isDigit).length g.maxDigits)

/-- Drop what may stand before the first numeral. -/
def dropLead : Grammar → Text → Text
  | .strict, 'v' :: cs => cs
  | .strict, cs        => cs
  | .loose, cs         => cs.dropWhile isLead

/-- The parts of a version text. -/
structure Reading where
  major : Text
  minor : Text
  patch : Text
  qualifiers : Qualifiers

/-- Read a version text without white space around it. -/
def read? (g : Grammar) (cs : Text) : Option Reading :=
  match (g.dropLead cs).cut '.' with
  | (_, none)          => none
  | (major, some rest) =>
    match rest.cut '.' with
    | (_, none)          => none
    | (minor, some rest) =>
      if g.isNumeral major && g.isNumeral minor then
        (g.patch? rest).map fun p => ⟨major, minor, p.1, p.2⟩
      else none

def accepts (g : Grammar) (cs : Text) : Bool :=
  (g.read? cs).isSome

end Grammar

end VersionConstraints
