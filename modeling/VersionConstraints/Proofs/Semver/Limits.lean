import VersionConstraints.Proofs.Semver.Canonical

/-!
# Limits of versions

Directly above a prerelease stands the one with the identifier `0` more, unless its text would be
too long. Directly above a release stands the one with the next patch, unless that number would not
be safe. Nothing else keeps the version above a given one from being written.
-/

namespace VersionConstraints

def Release.IsLast (r : Release) : Prop :=
  Numeral.maxSafe ≤ r.patch

instance (r : Release) : Decidable r.IsLast :=
  inferInstanceAs (Decidable (_ ≤ _))

namespace Semver

variable {v : Semver} {r : Release} {f : Fault}

/-- Whether the text of a version has no room for the identifier `0`. -/
def IsFull (v : Semver) : Prop :=
  maxUnits < v.text.length + 2

instance (v : Semver) : Decidable v.IsFull :=
  inferInstanceAs (Decidable (_ < _))

/-- The identifiers of a comparable version are strict ones. -/
lemma Comparable.isIdentifier (h : v.Comparable) :
    ∀ a ∈ v.prerelease, Grammar.strict.isIdentifier a.text = true := by
  have hread := h.ofText_text
  rw [h.wellFormed.ofText_text] at hread
  split at hread
  · cases hread
  · split at hread
    · next hall => exact List.all_eq_true.mp hall
    · cases hread

lemma Comparable.all_isIdentifier_extended (h : v.Comparable) :
    (v.extended.prerelease.all fun a => Grammar.strict.isIdentifier a.text) = true := by
  refine List.all_eq_true.mpr (List.forall_mem_append.mpr ⟨h.isIdentifier, ?_⟩)
  exact List.forall_mem_singleton.mpr rfl

/-- The prerelease directly above a given one is there unless its text would be too long. -/
lemma Comparable.nextPrerelease_eq (h : v.Comparable) (hp : v.isPrerelease = true) :
    v.nextPrerelease = if v.IsFull then .error .tooLong else .ok v.extended := by
  have hlength : v.extended.text.length = v.text.length + 2 := by
    rw [text_extended hp, List.length_append]
    rfl
  rw [nextPrerelease, ← text_extended hp, h.wellFormed.extended.ofText_text, hlength,
    if_pos h.all_isIdentifier_extended]
  rfl

/-- The release with the next patch is there unless that would not be a safe number. -/
lemma nextPatch_eq (r : Release) :
    nextPatch r =
      if r.IsLast then .error (.tooLarge .patch)
      else .ok (ofRelease { r with patch := r.patch + 1 }) := by
  by_cases h : r.IsLast
  · rw [nextPatch, if_neg (Nat.not_lt.mpr h), if_pos h]
  · rw [nextPatch, if_pos (Nat.not_le.mp h), if_neg h]

lemma isFull_iff : v.IsFull ↔ 254 < v.text.length := by
  simp only [IsFull, maxUnits]
  omega

/-- The last patch is the largest safe number. -/
lemma isLast_iff (hr : r.Safe) : r.IsLast ↔ r.patch = Numeral.maxSafe :=
  ⟨fun h => le_antisymm hr.patch_le h, ge_of_eq⟩

/-! ### Texts that are made of a version -/

/-- The text of a safe release is read as the release. -/
lemma ofText_text_ofRelease (hr : r.Safe) : ofText .strict r.text = .ok (ofRelease r) :=
  (ordinary_ofRelease hr).regular.ofText_text

/-- The text of the lowest prerelease of a safe release is read as that. -/
lemma ofText_text_lowestPrerelease (hr : r.Safe) :
    ofText .strict (r.text ++ ['-', '0']) = .ok (lowestPrerelease r) :=
  (ordinary_lowestPrerelease hr).regular.ofText_text

/-- The number behind the last patch is a numeral, but not a safe number. -/
lemma ofText_text_of_isLast (hr : r.Safe) (hlast : r.IsLast) :
    ofText .strict (Release.text { r with patch := r.patch + 1 }) =
      .error (.tooLarge .patch) := by
  have hpatch : r.patch = Numeral.maxSafe := (isLast_iff hr).mp hlast
  have hnumeral : Grammar.strict.isNumeral (Numeral.text (Numeral.maxSafe + 1)) = true := by
    decide
  have hlarge : componentOfText .patch (Numeral.text (Numeral.maxSafe + 1)) =
      .error (.tooLarge .patch) := by
    decide
  have hplain : ∀ c ∈ Release.text { r with patch := r.patch + 1 }, isPlain c = true :=
    isPlain_text_of_identifierTexts (v := ofRelease { r with patch := r.patch + 1 }) nofun
  have hread : Grammar.strict.read? (Release.text { r with patch := r.patch + 1 }) =
      some ⟨Numeral.text r.major, Numeral.text r.minor, Numeral.text (Numeral.maxSafe + 1),
        [], []⟩ := by
    have hids : IdentifierTexts [] := nofun
    have hread := Grammar.read?_texts (Numeral.isNumeral_text hr.major_le)
      (Numeral.isNumeral_text hr.minor_le) hnumeral hids
    simpa [Release.text, prereleaseText, hpatch] using hread
  have hlength : (Release.text { r with patch := r.patch + 1 }).length ≤ maxUnits := by
    have hmajor := Numeral.length_text_le hr.major_le
    have hminor := Numeral.length_text_le hr.minor_le
    have hlast : (Numeral.text (Numeral.maxSafe + 1)).length = 16 := by decide
    simp only [Release.text, List.length_append, List.length_cons, hpatch, hlast, maxUnits]
    omega
  rw [ofText, Text.units16_of_plain hplain, if_neg (Nat.not_lt.mpr hlength), Text.trim_of_plain hplain,
    hread]
  simp only [releaseOfTexts, componentOfText_text hr.major_le, componentOfText_text hr.minor_le,
    hlarge, ok_bind, error_bind]

/-- The texts that are made of a version to look for its neighbours are read as versions: its
release, the lowest prerelease of that, the next patch unless the number is not safe, and the next
prerelease unless its text is too long. -/
structure ReadsNeighbours (v : Semver) : Prop where
  release : ofText .strict v.release.text = .ok (ofRelease v.release)
  lowestPrerelease : ofText .strict (v.release.text ++ ['-', '0']) =
    .ok (lowestPrerelease v.release)
  nextPatch : ofText .strict (Release.text { v.release with patch := v.release.patch + 1 }) =
    if v.release.patch = Numeral.maxSafe then .error (.tooLarge .patch)
    else .ok (ofRelease { v.release with patch := v.release.patch + 1 })
  nextPrerelease : v.isPrerelease = true → ofText .strict (v.text ++ ['.', '0']) =
    if 254 < v.text.length then .error .tooLong else .ok v.extended

/-- Of a comparable version the neighbours can be read as far as they exist. -/
theorem Comparable.readsNeighbours (h : v.Comparable) : v.ReadsNeighbours where
  release := ofText_text_ofRelease h.wellFormed.release
  lowestPrerelease := ofText_text_lowestPrerelease h.wellFormed.release
  nextPatch := by
    have hr : v.release.Safe := h.wellFormed.release
    split
    · next hpatch => exact ofText_text_of_isLast hr ((isLast_iff hr).mpr hpatch)
    · next hpatch =>
      have hnext : Release.Safe { v.release with patch := v.release.patch + 1 } :=
        ⟨hr.major_le, hr.minor_le, lt_of_le_of_ne hr.patch_le hpatch⟩
      exact ofText_text_ofRelease hnext
  nextPrerelease := by
    intro hp
    simp only [← isFull_iff]
    exact h.nextPrerelease_eq hp

end Semver

end VersionConstraints
