import VersionConstraints.Semver.Grammar

/-!
# Where a version ends

Inside an expression a version is found from its start, without regard to what follows: a loose full
version, or else a strict partial one, which may end early or have wildcards for numbers. Each part
takes as much as it can.

A scan answers with the rest behind what it found, or with nothing. The rest is always shorter than
the text, so a search that goes on with it comes to an end.
-/

namespace VersionConstraints

namespace Grammar

variable {g : Grammar} {cs rest : Text}

/-! ### Numerals and words -/

/-- The rest behind a numeral. A strict one ends at a leading zero. -/
def scanNumeral? (g : Grammar) : Text → Option Text
  | []      => none
  | c :: cs =>
    if !c.isDigit then none
    else if g = .strict ∧ c = '0' then some cs
    else some (Text.dropUpTo Char.isDigit (g.maxDigits - 1) cs)

/-- A scan that finds something has gone on. -/
theorem length_scanNumeral? (h : g.scanNumeral? cs = some rest) : rest.length < cs.length := by
  cases cs with
  | nil => simp [scanNumeral?] at h
  | cons c tail =>
    have := Text.length_dropUpTo_le Char.isDigit (g.maxDigits - 1) tail
    simp only [scanNumeral?] at h
    grind

def scanWord? (cs : Text) : Option Text :=
  match Text.dropUpTo Char.isDigit maxLeadingDigits cs with
  | []        => none
  | c :: tail =>
    if isLetterOrHyphen c then some (Text.dropUpTo isIdentifierChar maxIdentifierChars tail)
    else none

theorem length_scanWord? (h : scanWord? cs = some rest) : rest.length < cs.length := by
  have hle := Text.length_dropUpTo_le Char.isDigit maxLeadingDigits cs
  unfold scanWord? at h
  split at h
  · simp at h
  · next c tail htail =>
    have := Text.length_dropUpTo_le isIdentifierChar maxIdentifierChars tail
    grind

/-! ### Prereleases -/

def scanIdentifier? (g : Grammar) (cs : Text) : Option Text :=
  scanWord? cs <|> g.scanNumeral? cs

theorem length_scanIdentifier? (h : g.scanIdentifier? cs = some rest) :
    rest.length < cs.length := by
  unfold scanIdentifier? at h
  cases hw : scanWord? cs with
  | none   => exact length_scanNumeral? (by simpa [hw] using h)
  | some r => exact length_scanWord? (by simpa [hw] using h)

/-- The rest behind further identifiers, each with a dot before it. -/
def scanMoreIdentifiers (g : Grammar) (cs : Text) : Text :=
  match cs with
  | '.' :: tail =>
    match _h : g.scanIdentifier? tail with
    | some rest => g.scanMoreIdentifiers rest
    | none      => '.' :: tail
  | cs          => cs
termination_by cs.length
decreasing_by
  have := length_scanIdentifier? _h
  simp only [List.length_cons]
  omega

/-- A scan of what may be missing does not go back. -/
theorem length_scanMoreIdentifiers_le (g : Grammar) (cs : Text) :
    (g.scanMoreIdentifiers cs).length ≤ cs.length := by
  fun_induction scanMoreIdentifiers g cs with
  | case1 tail rest h ih =>
    have := length_scanIdentifier? h
    simp only [List.length_cons]
    omega
  | case2 => simp
  | case3 => simp

def scanIdentifiers? (g : Grammar) (cs : Text) : Option Text :=
  (g.scanIdentifier? cs).map g.scanMoreIdentifiers

theorem length_scanIdentifiers? (h : g.scanIdentifiers? cs = some rest) :
    rest.length < cs.length := by
  obtain ⟨r, hr, rfl⟩ := Option.map_eq_some_iff.1 h
  exact Nat.lt_of_le_of_lt (length_scanMoreIdentifiers_le g r) (length_scanIdentifier? hr)

def scanPrerelease? : Grammar → Text → Option Text
  | .strict, '-' :: cs => scanIdentifiers? .strict cs
  | .strict, _         => none
  | .loose, '-' :: cs  => scanIdentifiers? .loose cs <|> scanIdentifiers? .loose ('-' :: cs)
  | .loose, cs         => scanIdentifiers? .loose cs

theorem length_scanPrerelease? (h : g.scanPrerelease? cs = some rest) :
    rest.length < cs.length := by
  unfold scanPrerelease? at h
  split at h
  · have := length_scanIdentifiers? h
    simp only [List.length_cons]
    omega
  · simp at h
  · next tail =>
    cases ht : scanIdentifiers? .loose tail with
    | none   => exact length_scanIdentifiers? (by simpa [ht] using h)
    | some r =>
      have := length_scanIdentifiers? ht
      simp_all
      omega
  · exact length_scanIdentifiers? h

def scanPrerelease (g : Grammar) (cs : Text) : Text :=
  (g.scanPrerelease? cs).getD cs

theorem length_scanPrerelease_le (g : Grammar) (cs : Text) :
    (g.scanPrerelease cs).length ≤ cs.length := by
  unfold scanPrerelease
  cases h : g.scanPrerelease? cs with
  | none   => simp
  | some r => exact Nat.le_of_lt (length_scanPrerelease? h)

end Grammar

/-! ### Versions -/

/-- The characters that stand for any number. -/
def isWildcard (c : Char) : Bool := c == 'x' || c == 'X' || c == '*'

namespace Grammar

variable {g : Grammar} {cs rest : Text}

def scanPart? (g : Grammar) : Text → Option Text
  | []      => none
  | c :: cs => if isWildcard c then some cs else g.scanNumeral? (c :: cs)

theorem length_scanPart? (h : g.scanPart? cs = some rest) : rest.length < cs.length := by
  unfold scanPart? at h
  split at h
  · simp at h
  · split at h
    · simp_all
    · exact length_scanNumeral? h

/-- The rest behind a dot and what a scan finds there. -/
def scanAfterDot? (scan : Text → Option Text) : Text → Option Text
  | '.' :: cs => scan cs
  | _         => none

theorem length_scanAfterDot? {scan : Text → Option Text}
    (hscan : ∀ {cs rest}, scan cs = some rest → rest.length < cs.length)
    (h : scanAfterDot? scan cs = some rest) : rest.length < cs.length := by
  unfold scanAfterDot? at h
  split at h
  · have := hscan h
    simp only [List.length_cons]
    omega
  · simp at h

theorem length_dropLead_le (cs : Text) : (cs.dropWhile isLead).length ≤ cs.length :=
  (List.dropWhile_sublist _).length_le

/-- The rest behind a loose version with its lead. -/
def scanFull? (cs : Text) : Option Text :=
  scanNumeral? .loose (cs.dropWhile isLead)
    |>.bind (scanAfterDot? (scanNumeral? .loose))
    |>.bind (scanAfterDot? (scanNumeral? .loose))
    |>.map (scanPrerelease .loose)

theorem length_scanFull? (h : scanFull? cs = some rest) : rest.length < cs.length := by
  simp only [scanFull?, Option.map_eq_some_iff, Option.bind_eq_some_iff] at h
  obtain ⟨r₃, ⟨r₂, ⟨r₁, h₁, h₂⟩, h₃⟩, rfl⟩ := h
  have h₁ := length_scanNumeral? h₁
  have h₂ := length_scanAfterDot? length_scanNumeral? h₂
  have h₃ := length_scanAfterDot? length_scanNumeral? h₃
  have := length_dropLead_le cs
  have := length_scanPrerelease_le .loose r₃
  omega

/-- The rest behind the patch and the prerelease of a partial version, if they are there. -/
def scanPartialPatch (cs : Text) : Text :=
  match scanAfterDot? (scanPart? .strict) cs with
  | some rest => scanPrerelease .strict rest
  | none      => cs

theorem length_scanPartialPatch_le (cs : Text) : (scanPartialPatch cs).length ≤ cs.length := by
  unfold scanPartialPatch
  split
  · next rest h =>
    have := length_scanAfterDot? length_scanPart? h
    have := length_scanPrerelease_le .strict rest
    omega
  · exact Nat.le_refl _

/-- The rest behind the minor and what follows in a partial version, if they are there. -/
def scanPartialMinor (cs : Text) : Text :=
  match scanAfterDot? (scanPart? .strict) cs with
  | some rest => scanPartialPatch rest
  | none      => cs

theorem length_scanPartialMinor_le (cs : Text) : (scanPartialMinor cs).length ≤ cs.length := by
  unfold scanPartialMinor
  split
  · next rest h =>
    have := length_scanAfterDot? length_scanPart? h
    have := length_scanPartialPatch_le rest
    omega
  · exact Nat.le_refl _

/-- The rest behind a strict partial version with its lead. -/
def scanPartial? (cs : Text) : Option Text :=
  (scanPart? .strict (cs.dropWhile isLead)).map scanPartialMinor

theorem length_scanPartial? (h : scanPartial? cs = some rest) : rest.length < cs.length := by
  obtain ⟨r, hr, rfl⟩ := Option.map_eq_some_iff.1 h
  have := length_scanPart? hr
  have := length_scanPartialMinor_le r
  have := length_dropLead_le cs
  omega

/-- The rest behind a version that an operator may stand before. -/
def scanVersion? (cs : Text) : Option Text :=
  scanFull? cs <|> scanPartial? cs

/-- Behind a version there is less of the text. -/
theorem length_scanVersion? (h : scanVersion? cs = some rest) : rest.length < cs.length := by
  unfold scanVersion? at h
  cases hf : scanFull? cs with
  | none   => exact length_scanPartial? (by simpa [hf] using h)
  | some r => exact length_scanFull? (by simpa [hf] using h)

end Grammar

end VersionConstraints
