import VersionConstraints.Expression.Partial
import VersionConstraints.Numeral.Precision

/-!
# Shorthands

Hyphens, tildes, carets and open numbers are shorthands for one or two comparators. Each function
here writes the comparators of one shorthand, with a space between them.

The lower end of a shorthand is always included. The upper end, where it is not a version that was
given, is the lowest prerelease of the first release that is out, and is not included.
-/

namespace VersionConstraints

/-! ### Ends -/

/-- The numeral that stands for an open number. -/
def zeroText : Text := ['0']

def tripleText (major minor patch : Text) : Text :=
  major ++ '.' :: (minor ++ '.' :: patch)

def prereleaseText (ids : List Text) : Text :=
  if ids.isEmpty then [] else '-' :: ['.'].intercalate ids

/-- The comparator for a release and all above. -/
def fromText (major minor patch : Text) : Text :=
  '>' :: '=' :: tripleText major minor patch

/-- The comparator for all below a release and its prereleases. -/
def beforeText (major minor patch : Text) : Text :=
  '<' :: (tripleText major minor patch ++ ['-', '0'])

def beforeNextMajor (major : Text) : Text :=
  beforeText (Numeral.successor major) zeroText zeroText

def beforeNextMinor (major minor : Text) : Text :=
  beforeText major (Numeral.successor minor) zeroText

def bothText (low high : Text) : Text :=
  low ++ ' ' :: high

def majorText (major : Text) : Text :=
  bothText (fromText major zeroText zeroText) (beforeNextMajor major)

def minorText (major minor : Text) : Text :=
  bothText (fromText major minor zeroText) (beforeNextMinor major minor)

namespace Partial

/-! ### Carets and tildes -/

/-- The comparators of a caret: changes behind the first number that is not zero are let in. -/
def caret (p : Partial) : Text :=
  match p.major, p.minor, p.patch with
  | none, _, _                         => []
  | some major, none, _                => majorText major
  | some major, some minor, none       =>
    bothText (fromText major minor zeroText)
      (if major = zeroText then beforeNextMinor major minor else beforeNextMajor major)
  | some major, some minor, some patch =>
    bothText (fromText major minor patch ++ prereleaseText p.prerelease)
      (if major ≠ zeroText then beforeNextMajor major
        else if minor ≠ zeroText then beforeNextMinor major minor
        else beforeText major minor (Numeral.successor patch))

/-- The comparators of a tilde: changes of the patch are let in, of the minor only if it is open. -/
def tilde (p : Partial) : Text :=
  match p.major, p.minor, p.patch with
  | none, _, _                         => []
  | some major, none, _                => majorText major
  | some major, some minor, none       => minorText major minor
  | some major, some minor, some patch =>
    bothText (fromText major minor patch ++ prereleaseText p.prerelease)
      (beforeNextMinor major minor)

/-! ### Open numbers -/

/-- The comparators of an operator with a partial version. There are none of a full version, nor of
one with a number behind an open one. -/
def open? (o : Operator) (p : Partial) : Option Text :=
  match p.major, p.minor, p.patch with
  | none, none, none             =>
    match o with
    | .below | .above             => some (beforeText zeroText zeroText zeroText)
    | .equal | .atMost | .atLeast => some ['*']
  | some major, none, none       =>
    match o with
    | .equal   => some (majorText major)
    | .below   => some (beforeText major zeroText zeroText)
    | .atMost  => some (beforeNextMajor major)
    | .above   => some (fromText (Numeral.successor major) zeroText zeroText)
    | .atLeast => some (fromText major zeroText zeroText)
  | some major, some minor, none =>
    match o with
    | .equal   => some (minorText major minor)
    | .below   => some (beforeText major minor zeroText)
    | .atMost  => some (beforeNextMinor major minor)
    | .above   => some (fromText major (Numeral.successor minor) zeroText)
    | .atLeast => some (fromText major minor zeroText)
  | _, _, _                      => none

/-! ### Hyphens -/

/-- The lower end of a hyphen, which is written as `whole`. -/
def hyphenFrom (p : Partial) (whole : Text) : Text :=
  match p.major, p.minor, p.patch with
  | none, _, _                   => []
  | some major, none, _          => fromText major zeroText zeroText
  | some major, some minor, none => fromText major minor zeroText
  | some _, some _, some _       => '>' :: '=' :: whole

/-- The upper end of a hyphen, which is written as `whole`. -/
def hyphenTo (p : Partial) (whole : Text) : Text :=
  match p.major, p.minor, p.patch with
  | none, _, _                         => []
  | some major, none, _                => beforeNextMajor major
  | some major, some minor, none       => beforeNextMinor major minor
  | some major, some minor, some patch =>
    if p.prerelease.isEmpty then '<' :: '=' :: whole
    else '<' :: '=' :: (tripleText major minor patch ++ prereleaseText p.prerelease)

end Partial

end VersionConstraints
