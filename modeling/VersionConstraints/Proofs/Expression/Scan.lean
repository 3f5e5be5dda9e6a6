import Mathlib.Tactic.Lemma
import VersionConstraints.Expression.Scan

/-!
# What a scan leaves

The rest behind what a scan finds is an end of the text that was scanned.
-/

namespace VersionConstraints

/-- A bounded run is dropped from the front. -/
lemma Text.dropUpTo_suffix (p : Char → Bool) (n : Nat) (cs : Text) : dropUpTo p n cs <:+ cs := by
  fun_induction dropUpTo p n cs with
  | case1 | case2 | case4 => exact List.suffix_rfl
  | case3 n c cs _ ih => exact ih.trans (List.suffix_cons c cs)

namespace Grammar

variable {g : Grammar} {cs rest : Text}

/-- Whether whatever a scan leaves is an end of the text. -/
def LeavesEnd (scan : Text → Option Text) : Prop :=
  ∀ cs rest, scan cs = some rest → rest <:+ cs

lemma eq_some_or_of_orElse {x y : Option Text} (h : (x <|> y) = some rest) :
    x = some rest ∨ y = some rest := by
  cases x with
  | none => exact .inr h
  | some t => exact .inl h

/-! ### Identifiers -/

lemma leavesEnd_scanNumeral? : LeavesEnd (scanNumeral? g) := by
  intro cs rest h
  cases cs with
  | nil => cases h
  | cons c tail =>
    simp only [scanNumeral?] at h
    split at h
    · cases h
    · split at h
      · cases h
        exact List.suffix_cons _ _
      · cases h
        exact (Text.dropUpTo_suffix _ _ _).trans (List.suffix_cons _ _)

lemma leavesEnd_scanWord? : LeavesEnd scanWord? := by
  intro cs rest h
  have hdrop := Text.dropUpTo_suffix Char.isDigit maxLeadingDigits cs
  simp only [scanWord?] at h
  split at h
  · cases h
  · next c tail heq =>
    split at h
    · cases h
      rw [heq] at hdrop
      exact ((Text.dropUpTo_suffix _ _ tail).trans (List.suffix_cons c tail)).trans hdrop
    · cases h

lemma LeavesEnd.orElse {scan scan' : Text → Option Text} (h : LeavesEnd scan)
    (h' : LeavesEnd scan') : LeavesEnd fun cs => scan cs <|> scan' cs := by
  intro cs rest hcs
  rcases eq_some_or_of_orElse hcs with hcs | hcs
  · exact h cs rest hcs
  · exact h' cs rest hcs

lemma leavesEnd_scanIdentifier? : LeavesEnd (scanIdentifier? g) :=
  leavesEnd_scanWord?.orElse leavesEnd_scanNumeral?

lemma scanMoreIdentifiers_suffix (g : Grammar) (cs : Text) : g.scanMoreIdentifiers cs <:+ cs := by
  fun_induction scanMoreIdentifiers g cs with
  | case1 tail rest h ih =>
    exact (ih.trans (leavesEnd_scanIdentifier? tail rest h)).trans (List.suffix_cons _ tail)
  | case2 | case3 => exact List.suffix_rfl

/-- A scan of identifiers leaves the end of the text. -/
lemma leavesEnd_scanIdentifiers? : LeavesEnd (scanIdentifiers? g) := by
  intro cs rest h
  obtain ⟨r, hr, rfl⟩ := Option.map_eq_some_iff.mp h
  exact (scanMoreIdentifiers_suffix g r).trans (leavesEnd_scanIdentifier? cs r hr)

/-! ### Prereleases -/

/-- A scan of a prerelease leaves the end of the text. -/
lemma leavesEnd_scanPrerelease? : LeavesEnd (scanPrerelease? g) := by
  intro cs rest h
  simp only [scanPrerelease?] at h
  split at h
  · exact (leavesEnd_scanIdentifiers? _ rest h).trans (List.suffix_cons _ _)
  · cases h
  · next tail =>
    rcases eq_some_or_of_orElse h with h | h
    · exact (leavesEnd_scanIdentifiers? _ rest h).trans (List.suffix_cons _ _)
    · exact leavesEnd_scanIdentifiers? _ rest h
  · exact leavesEnd_scanIdentifiers? _ rest h

lemma scanPrerelease_suffix (g : Grammar) (cs : Text) : g.scanPrerelease cs <:+ cs := by
  rw [scanPrerelease]
  cases h : g.scanPrerelease? cs with
  | none => exact List.suffix_rfl
  | some rest => exact leavesEnd_scanPrerelease? cs rest h

/-! ### Versions -/

lemma leavesEnd_scanPart? : LeavesEnd (scanPart? g) := by
  intro cs rest h
  cases cs with
  | nil => cases h
  | cons c tail =>
    simp only [scanPart?] at h
    split at h
    · cases h
      exact List.suffix_cons _ _
    · exact leavesEnd_scanNumeral? _ rest h

lemma LeavesEnd.afterDot {scan : Text → Option Text} (h : LeavesEnd scan) :
    LeavesEnd (scanAfterDot? scan) := by
  intro cs rest hcs
  simp only [scanAfterDot?] at hcs
  split at hcs
  · exact (h _ rest hcs).trans (List.suffix_cons _ _)
  · cases hcs

/-- A scan of a full version leaves the end of the text. -/
lemma leavesEnd_scanFull? : LeavesEnd scanFull? := by
  intro cs rest h
  simp only [scanFull?, Option.map_eq_some_iff, Option.bind_eq_some_iff] at h
  obtain ⟨patch, ⟨minor, ⟨major, hmajor, hminor⟩, hpatch⟩, rfl⟩ := h
  refine (scanPrerelease_suffix .loose patch).trans ?_
  refine (leavesEnd_scanNumeral?.afterDot _ patch hpatch).trans ?_
  refine (leavesEnd_scanNumeral?.afterDot _ minor hminor).trans ?_
  exact (leavesEnd_scanNumeral? _ major hmajor).trans (List.dropWhile_suffix isLead)

lemma scanPartialPatch_suffix (cs : Text) : scanPartialPatch cs <:+ cs := by
  rw [scanPartialPatch]
  split
  · next rest h =>
    exact (scanPrerelease_suffix .strict rest).trans (leavesEnd_scanPart?.afterDot cs rest h)
  · exact List.suffix_rfl

lemma scanPartialMinor_suffix (cs : Text) : scanPartialMinor cs <:+ cs := by
  rw [scanPartialMinor]
  split
  · next rest h =>
    exact (scanPartialPatch_suffix rest).trans (leavesEnd_scanPart?.afterDot cs rest h)
  · exact List.suffix_rfl

/-- A scan of a partial version leaves the end of the text. -/
lemma leavesEnd_scanPartial? : LeavesEnd scanPartial? := by
  intro cs rest h
  obtain ⟨r, hr, rfl⟩ := Option.map_eq_some_iff.mp h
  refine (scanPartialMinor_suffix r).trans ?_
  exact (leavesEnd_scanPart? _ r hr).trans (List.dropWhile_suffix isLead)

/-- What is left behind a version is an end of the text. -/
theorem leavesEnd_scanVersion? : LeavesEnd scanVersion? :=
  leavesEnd_scanFull?.orElse leavesEnd_scanPartial?

end Grammar

end VersionConstraints
