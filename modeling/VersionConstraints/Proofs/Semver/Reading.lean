import VersionConstraints.Expression.Shorthand
import VersionConstraints.Proofs.Semver.WellFormed
import VersionConstraints.Semver.Ordinary

/-!
# Reading canonical texts

The canonical text of a well-formed version can be read in one way only. The strict grammar reads it
back as the same release and the same prerelease, unless it takes too many units or has an
identifier that only the loose grammar takes.
-/

namespace VersionConstraints

/-! ### Cutting -/

namespace Text

/-- A text is cut at the first separator. -/
lemma cut_append {sep : Char} {s : Text} (t : Text) (h : sep ∉ s) :
    cut sep (s ++ sep :: t) = (s, some t) := by
  have hs : ∀ c ∈ s, (c != sep) = true := fun c hc => by
    simpa using fun heq : c = sep => h (heq ▸ hc)
  rw [cut, List.takeWhile_append_of_pos hs, List.dropWhile_append_of_pos hs]
  simp

/-- A text without the separator is not cut. -/
lemma cut_of_not_mem {sep : Char} {s : Text} (h : sep ∉ s) : cut sep s = (s, none) := by
  have hs : ∀ c ∈ s, (c != sep) = true := fun c hc => by
    simpa using fun heq : c = sep => h (heq ▸ hc)
  rw [← List.append_nil s, cut, List.takeWhile_append_of_pos hs, List.dropWhile_append_of_pos hs]
  simp

end Text

/-! ### The parts of a version text -/

lemma Numeral.not_mem_text {n : Nat} {c : Char} (h : c.isDigit = false) : c ∉ text n := by
  intro hc
  rw [isDigit_of_mem_text hc] at h
  cases h

def IdentifierTexts (ids : List Text) : Prop :=
  ∀ t ∈ ids, ∀ c ∈ t, isIdentifierChar c = true

lemma IdentifierTexts.isPlain_intercalate {ids : List Text} (h : IdentifierTexts ids) :
    ∀ c ∈ ['.'].intercalate ids, isPlain c = true := by
  induction ids with
  | nil => exact nofun
  | cons t ids ih =>
    obtain ⟨ht, hids⟩ := List.forall_mem_cons.mp h
    cases ids with
    | nil =>
      rw [List.intercalate_singleton]
      exact fun c hc => isPlain_of_isIdentifierChar (ht c hc)
    | cons t' ids =>
      rw [List.intercalate_cons_cons]
      intro c hc
      rcases List.mem_append.mp hc with hc | hc
      · rcases List.mem_append.mp hc with hc | hc
        · exact isPlain_of_isIdentifierChar (ht c hc)
        · rw [List.mem_singleton.mp hc]
          decide
      · exact ih hids c hc

lemma IdentifierTexts.isPlain {ids : List Text} (h : IdentifierTexts ids) :
    ∀ c ∈ prereleaseText ids, isPlain c = true := by
  simp only [prereleaseText]
  split
  · exact nofun
  · exact List.forall_mem_cons.mpr ⟨by decide, h.isPlain_intercalate⟩

lemma intercalate_append_singleton {ids : List Text} (sep t : Text) (h : ids ≠ []) :
    sep.intercalate (ids ++ [t]) = sep.intercalate ids ++ (sep ++ t) := by
  induction ids with
  | nil => exact absurd rfl h
  | cons s ids ih =>
    cases ids with
    | nil => simp
    | cons s' ids =>
      rw [List.cons_append, List.intercalate_cons_of_ne_nil (by simp), ih (by simp),
        List.intercalate_cons_cons, List.append_assoc (s ++ sep)]

/-- One more identifier stands behind a dot. -/
lemma prereleaseText_append {ids : List Text} (t : Text) (h : ids ≠ []) :
    prereleaseText (ids ++ [t]) = prereleaseText ids ++ '.' :: t := by
  rw [prereleaseText, prereleaseText, if_neg (by simp), if_neg (by simpa using h),
    intercalate_append_singleton _ _ h]
  rfl

namespace Grammar

variable {g : Grammar} {ids : List Text}

/-- Identifiers with dots between them are read if all of them fit the grammar. -/
lemma identifiers?_intercalate (h : IdentifierTexts ids) (hne : ids ≠ []) :
    g.identifiers? (['.'].intercalate ids) = if ids.all g.isIdentifier then some ids else none := by
  have hdot : ∀ t ∈ ids, '.' ∉ t := fun t ht hc => ne_dot_of_isIdentifierChar (h t ht _ hc) rfl
  rw [identifiers?, List.splitOn_intercalate '.' hdot hne]

lemma qualifiers?_eq_map_prerelease? (h : IdentifierTexts ids) :
    g.qualifiers? (prereleaseText ids) =
      (g.prerelease? (prereleaseText ids)).map fun ids => ⟨ids, []⟩ := by
  have hplus : '+' ∉ prereleaseText ids := fun hc => ne_plus_of_isPlain (h.isPlain _ hc) rfl
  rw [qualifiers?, Text.cut_of_not_mem hplus]
  cases g.prerelease? (prereleaseText ids) <;> rfl

/-- A prerelease of strict identifiers is read without a build. -/
lemma qualifiers?_of_all (h : IdentifierTexts ids) (hids : ids.all g.isIdentifier = true) :
    g.qualifiers? (prereleaseText ids) = some ⟨ids, []⟩ := by
  rw [qualifiers?_eq_map_prerelease? h]
  cases ids with
  | nil => cases g <;> rfl
  | cons t ts =>
    have hread := identifiers?_intercalate (g := g) h (List.cons_ne_nil t ts)
    rw [if_pos hids] at hread
    cases g <;> simp [prereleaseText, prerelease?, hread]

/-- A prerelease with an identifier that is not strict is not read strictly. -/
lemma qualifiers?_of_not_all (h : IdentifierTexts ids) (hids : ¬ ids.all strict.isIdentifier = true) :
    strict.qualifiers? (prereleaseText ids) = none := by
  rw [qualifiers?_eq_map_prerelease? h]
  cases ids with
  | nil => exact absurd rfl hids
  | cons t ts =>
    have hread := identifiers?_intercalate (g := strict) h (List.cons_ne_nil t ts)
    rw [if_neg hids] at hread
    simp [prereleaseText, prerelease?, hread]

/-- The digits in front of a prerelease end with the numeral. -/
lemma takeWhile_append_prereleaseText (n : Nat) (ids : List Text) :
    (Numeral.text n ++ prereleaseText ids).takeWhile Char.isDigit = Numeral.text n := by
  rw [List.takeWhile_append_of_pos fun c => Numeral.isDigit_of_mem_text]
  cases ids <;> simp [prereleaseText]

lemma length_le_maxDigits {ds : Text} (h : g.isNumeral ds = true) : ds.length ≤ g.maxDigits := by
  simp only [isNumeral, Bool.and_eq_true, decide_eq_true_eq] at h
  exact h.1.2

/-- The longest numeral is tried first, and it leaves a readable rest. -/
lemma patch?_of_all {n : Nat} (hnumeral : g.isNumeral (Numeral.text n) = true)
    (h : IdentifierTexts ids) (hids : ids.all g.isIdentifier = true) :
    g.patch? (Numeral.text n ++ prereleaseText ids) = some (Numeral.text n, ⟨ids, []⟩) := by
  obtain ⟨k, hk⟩ := Nat.exists_eq_succ_of_ne_zero
    (List.length_pos_iff.mpr (Numeral.text_ne_nil n)).ne'
  rw [patch?, takeWhile_append_prereleaseText, Nat.min_eq_left (length_le_maxDigits hnumeral), hk,
    patchUpTo?, ← Nat.succ_eq_add_one, ← hk, List.take_left, List.drop_left, if_pos hnumeral,
    qualifiers?_of_all h hids]

/-- Qualifiers do not begin with a digit. -/
lemma qualifiers?_digit {c : Char} (hc : c.isDigit = true) (cs : Text) :
    strict.qualifiers? (c :: cs) = none := by
  have hplus : c ≠ '+' := by
    rintro rfl
    cases hc
  have hhyphen : c ≠ '-' := by
    rintro rfl
    cases hc
  have hcut : (Text.cut '+' (c :: cs)).1 = c :: (Text.cut '+' cs).1 := by
    simp [Text.cut, hplus]
  have hnone : strict.prerelease? (c :: (Text.cut '+' cs).1) = none := by
    unfold prerelease?
    split <;> simp_all
  rw [qualifiers?, hcut, hnone]

/-- A numeral is read as a whole: what is left behind a part of it begins with a digit. -/
lemma patchUpTo?_of_lt {ds cs : Text} (hds : ∀ d ∈ ds, d.isDigit = true) {n : Nat}
    (hn : n < ds.length) : strict.patchUpTo? (ds ++ cs) n = none := by
  induction n with
  | zero => rfl
  | succ n ih =>
    have hdrop : (ds ++ cs).drop (n + 1) = ds[n + 1] :: (ds.drop (n + 2) ++ cs) := by
      rw [List.drop_append_of_le_length (by omega), List.drop_eq_getElem_cons hn, List.cons_append]
    rw [patchUpTo?, hdrop, qualifiers?_digit (hds _ (List.getElem_mem hn)), ite_self, ih (by omega)]

/-- A patch with a prerelease is read at the end of its numeral. -/
lemma patch?_append {n : Nat} (hnumeral : strict.isNumeral (Numeral.text n) = true)
    (h : IdentifierTexts ids) : strict.patch? (Numeral.text n ++ prereleaseText ids) =
      if ids.all strict.isIdentifier then some (Numeral.text n, ⟨ids, []⟩) else none := by
  by_cases hids : ids.all strict.isIdentifier = true
  · rw [if_pos hids, patch?_of_all hnumeral h hids]
  · obtain ⟨k, hk⟩ := Nat.exists_eq_succ_of_ne_zero
      (List.length_pos_iff.mpr (Numeral.text_ne_nil n)).ne'
    rw [if_neg hids, patch?, takeWhile_append_prereleaseText,
      Nat.min_eq_left (length_le_maxDigits hnumeral), hk, patchUpTo?, ← Nat.succ_eq_add_one, ← hk,
      List.take_left, List.drop_left, if_pos hnumeral, qualifiers?_of_not_all h hids]
    exact patchUpTo?_of_lt (fun d => Numeral.isDigit_of_mem_text) (by omega)

lemma dropLead_text (n : Nat) (cs : Text) :
    g.dropLead (Numeral.text n ++ cs) = Numeral.text n ++ cs := by
  obtain ⟨c, ds, hds⟩ := List.exists_cons_of_ne_nil (Numeral.text_ne_nil n)
  have hdigit : c.isDigit = true := Numeral.isDigit_of_mem_text (hds ▸ List.mem_cons_self)
  rw [hds, List.cons_append]
  cases g with
  | strict =>
    rw [dropLead]
    rintro cs' heq
    rw [(List.cons.inj heq).1] at hdigit
    cases hdigit
  | loose => exact List.dropWhile_cons_of_neg (by simp [not_isLead_of_isDigit hdigit])

/-- Two numerals with dots behind them are read as such. -/
lemma read?_numerals {major minor : Nat} (hmajor : g.isNumeral (Numeral.text major) = true)
    (hminor : g.isNumeral (Numeral.text minor) = true) (cs : Text) :
    g.read? (Numeral.text major ++ '.' :: (Numeral.text minor ++ '.' :: cs)) =
      (g.patch? cs).map fun p => ⟨Numeral.text major, Numeral.text minor, p.1, p.2⟩ := by
  have hdot (n : Nat) : '.' ∉ Numeral.text n := Numeral.not_mem_text (by decide)
  rw [read?, dropLead_text, Text.cut_append _ (hdot _)]
  dsimp only
  rw [Text.cut_append _ (hdot _)]
  dsimp only
  rw [hmajor, hminor, Bool.and_self, if_pos rfl]

/-- Three numerals and a prerelease are read as such. -/
lemma read?_texts {major minor patch : Nat}
    (hmajor : strict.isNumeral (Numeral.text major) = true)
    (hminor : strict.isNumeral (Numeral.text minor) = true)
    (hpatch : strict.isNumeral (Numeral.text patch) = true) (h : IdentifierTexts ids) :
    strict.read? (Numeral.text major ++ '.' :: (Numeral.text minor ++
        '.' :: (Numeral.text patch ++ prereleaseText ids))) =
      if ids.all strict.isIdentifier then
        some ⟨Numeral.text major, Numeral.text minor, Numeral.text patch, ids, []⟩
      else none := by
  rw [read?_numerals hmajor hminor, patch?_append hpatch h]
  split <;> rfl

end Grammar

/-! ### Reading back -/

namespace Semver

variable {v : Semver}

/-- A safe number is read back from its digits. -/
lemma componentOfText_text {c : Component} {n : Nat} (h : n ≤ Numeral.maxSafe) :
    componentOfText c (Numeral.text n) = .ok n := by
  rw [componentOfText, Numeral.value_text, if_pos h]

/-- The canonical text of a version, numeral by numeral. -/
lemma text_eq (v : Semver) :
    v.text = Numeral.text v.release.major ++ '.' :: (Numeral.text v.release.minor ++
      '.' :: (Numeral.text v.release.patch ++ prereleaseText (v.prerelease.map Identifier.text))) := by
  cases hp : v.prerelease <;> simp [text, isPrerelease, Release.text, prereleaseText, hp]

lemma isPlain_text_of_identifierTexts (h : IdentifierTexts (v.prerelease.map Identifier.text)) :
    ∀ c ∈ v.text, isPlain c = true := by
  have hdigit {n : Nat} {c : Char} (hc : c ∈ Numeral.text n) : isPlain c = true :=
    isPlain_of_isIdentifierChar (isIdentifierChar_of_isDigit (Numeral.isDigit_of_mem_text hc))
  rw [text_eq]
  intro c hc
  simp only [List.mem_append, List.mem_cons] at hc
  rcases hc with hc | rfl | hc | rfl | hc | hc
  · exact hdigit hc
  · decide
  · exact hdigit hc
  · decide
  · exact hdigit hc
  · exact h.isPlain c hc

namespace WellFormed

lemma identifierTexts (h : v.WellFormed) : IdentifierTexts (v.prerelease.map Identifier.text) := by
  intro t ht
  obtain ⟨a, ha, rfl⟩ := List.mem_map.mp ht
  exact (h.identifiers a ha).isIdentifierChar

/-- A canonical text has plain characters only. -/
lemma isPlain_text (h : v.WellFormed) : ∀ c ∈ v.text, isPlain c = true :=
  isPlain_text_of_identifierTexts h.identifierTexts

/-- The strict grammar takes a canonical text if its identifiers are strict. -/
lemma read?_text (h : v.WellFormed) :
    Grammar.strict.read? v.text =
      if v.prerelease.all fun a => Grammar.strict.isIdentifier a.text then
        some ⟨Numeral.text v.release.major, Numeral.text v.release.minor,
          Numeral.text v.release.patch, v.prerelease.map Identifier.text, []⟩
      else none := by
  rw [text_eq, Grammar.read?_texts (Numeral.isNumeral_text h.release.major_le)
    (Numeral.isNumeral_text h.release.minor_le) (Numeral.isNumeral_text h.release.patch_le)
    h.identifierTexts, List.all_map]
  rfl

/-- A grammar that takes its identifiers reads a canonical text back, unless the text is too
long. -/
theorem ofText_text_of_all {g : Grammar} (h : v.WellFormed) (hlen : v.text.length ≤ maxUnits)
    (hids : ∀ a ∈ v.prerelease, g.isIdentifier a.text = true) :
    ofText g v.text = .ok ⟨v.release, v.prerelease, [], g⟩ := by
  have hall : (v.prerelease.map Identifier.text).all g.isIdentifier = true := by
    rw [List.all_map, List.all_eq_true]
    exact hids
  have hread : g.read? v.text = some ⟨Numeral.text v.release.major, Numeral.text v.release.minor,
      Numeral.text v.release.patch, v.prerelease.map Identifier.text, []⟩ := by
    rw [text_eq, Grammar.read?_numerals (Numeral.isNumeral_text h.release.major_le)
      (Numeral.isNumeral_text h.release.minor_le),
      Grammar.patch?_of_all (Numeral.isNumeral_text h.release.patch_le) h.identifierTexts hall]
    rfl
  have hmap : (v.prerelease.map Identifier.text).map Identifier.ofText = v.prerelease := by
    rw [List.map_map]
    refine (List.map_congr_left fun a ha => ?_).trans (List.map_id _)
    exact (h.identifiers a ha).ofText_text
  rw [ofText, Text.units16_of_plain h.isPlain_text, Text.trim_of_plain h.isPlain_text,
    if_neg (Nat.not_lt.mpr hlen), hread]
  simp only [hmap, releaseOfTexts, componentOfText_text h.release.major_le,
    componentOfText_text h.release.minor_le, componentOfText_text h.release.patch_le, ok_bind,
    pure_eq_ok]

/-- The strict grammar reads a canonical text back, unless the text is too long or an identifier
is one that only the loose grammar takes. -/
theorem ofText_text (h : v.WellFormed) :
    ofText .strict v.text =
      if maxUnits < v.text.length then .error .tooLong
      else if v.prerelease.all fun a => Grammar.strict.isIdentifier a.text then
        .ok ⟨v.release, v.prerelease, [], .strict⟩
      else .error (.notVersion v.text) := by
  by_cases hlen : maxUnits < v.text.length
  · rw [if_pos hlen, ofText, Text.units16_of_plain h.isPlain_text, if_pos hlen]
  · rw [if_neg hlen]
    split
    · next hall => exact h.ofText_text_of_all (Nat.not_lt.mp hlen) (List.all_eq_true.mp hall)
    · next hall =>
      rw [ofText, Text.units16_of_plain h.isPlain_text, if_neg hlen,
        Text.trim_of_plain h.isPlain_text, h.read?_text, if_neg hall]

/-- A canonical text that the strict grammar reads is not too long and has strict identifiers. -/
lemma of_ofText_text (h : v.WellFormed) {w : Semver} (hw : ofText .strict v.text = .ok w) :
    v.text.length ≤ maxUnits ∧
      ∀ a ∈ v.prerelease, Grammar.strict.isIdentifier a.text = true := by
  rw [h.ofText_text] at hw
  split at hw
  · cases hw
  · next hlen =>
    split at hw
    · next hall => exact ⟨Nat.not_lt.mp hlen, List.all_eq_true.mp hall⟩
    · cases hw

/-- A canonical text is read as the version without its build. -/
lemma eq_of_ofText_text (h : v.WellFormed) {w : Semver} (hw : ofText .strict v.text = .ok w) :
    w = ⟨v.release, v.prerelease, [], .strict⟩ := by
  obtain ⟨hlen, hids⟩ := h.of_ofText_text hw
  rw [h.ofText_text_of_all hlen hids] at hw
  exact (Except.ok.inj hw).symm

end WellFormed

/-! ### Strictly -/

/-- A version that was read with either grammar and that a comparison can read strictly. -/
structure Comparable (v : Semver) : Prop where
  read : ∃ g t, ofText g t = .ok v
  strictly : ∃ w, v.strictly = .ok w

/-- A comparable version that keeps no numeral as a word. Ordinary versions are regular, and so are
versions read loosely whose canonical text is that of an ordinary one. -/
structure Regular (v : Semver) : Prop extends v.Comparable where
  words : ∀ t, .word t ∈ v.prerelease → Numeral.isDigits t = false

/-- A version that can be compared is well formed. -/
lemma Comparable.wellFormed (h : v.Comparable) : v.WellFormed := by
  obtain ⟨g, t, ht⟩ := h.read
  exact wellFormed_of_ofText ht

/-- A version that was read strictly can be compared. -/
lemma comparable_of_ofText {t : Text} (h : ofText .strict t = .ok v) : v.Comparable where
  read := ⟨.strict, t, h⟩
  strictly := ⟨v, by rw [Semver.strictly, grammar_of_ofText h]⟩

/-- Ordinary versions are regular. -/
lemma Ordinary.regular (h : v.Ordinary) : v.Regular := by
  obtain ⟨⟨t, ht⟩, hwords⟩ := h
  exact ⟨comparable_of_ofText ht, hwords⟩

lemma Comparable.read_strictly (h : v.Comparable) {w : Semver} (hw : v.strictly = .ok w) :
    ∃ t, ofText .strict t = .ok w := by
  obtain ⟨g, t, ht⟩ := h.read
  rw [Semver.strictly, grammar_of_ofText ht] at hw
  cases g with
  | strict => exact ⟨t, ht.trans hw⟩
  | loose => exact ⟨_, hw⟩

/-- Reading a version strictly keeps its release and its prerelease. -/
lemma WellFormed.strictly_eq (h : v.WellFormed) {w : Semver} (hw : v.strictly = .ok w) :
    w.release = v.release ∧ w.prerelease = v.prerelease := by
  simp only [Semver.strictly] at hw
  split at hw
  · cases hw
    exact ⟨rfl, rfl⟩
  · rw [h.eq_of_ofText_text hw]
    exact ⟨rfl, rfl⟩

/-- A version whose canonical text is read as an ordinary version is regular. -/
lemma regular_of_text {g : Grammar} {t : Text} {w : Semver} (hv : ofText g t = .ok v)
    (hw : ofText .strict v.text = .ok w) (hordinary : w.Ordinary) : v.Regular := by
  have hprerelease : v.prerelease = w.prerelease := by
    rw [(wellFormed_of_ofText hv).eq_of_ofText_text hw]
  refine ⟨⟨⟨g, t, hv⟩, ?_⟩, hprerelease ▸ hordinary.2⟩
  rw [Semver.strictly, grammar_of_ofText hv]
  cases g with
  | strict => exact ⟨v, rfl⟩
  | loose => exact ⟨w, hw⟩

/-- A regular version has the release and the prerelease of an ordinary one. -/
lemma Regular.exists_ordinary (h : v.Regular) :
    ∃ w : Semver, w.Ordinary ∧ w.release = v.release ∧ w.prerelease = v.prerelease := by
  obtain ⟨w, hw⟩ := h.strictly
  obtain ⟨hrelease, hprerelease⟩ := h.wellFormed.strictly_eq hw
  exact ⟨w, ⟨h.read_strictly hw, hprerelease ▸ h.words⟩, hrelease, hprerelease⟩

/-- Comparable versions compare by their order, whichever grammar they were read with. -/
theorem Comparable.compare_eq {w : Semver} (hv : v.Comparable) (hw : w.Comparable) :
    v.compare w = .ok (v.order w) := by
  obtain ⟨v', hv'⟩ := hv.strictly
  obtain ⟨w', hw'⟩ := hw.strictly
  obtain ⟨hrelease, hprerelease⟩ := hv.wellFormed.strictly_eq hv'
  obtain ⟨hrelease', hprerelease'⟩ := hw.wellFormed.strictly_eq hw'
  rw [compare, hv', hw', ok_bind, ok_bind, pure_eq_ok, order, order, hrelease, hprerelease,
    hrelease', hprerelease']

/-! ### Releases and prereleases that are made -/

/-- A version whose canonical text fits the strict grammar is ordinary. -/
lemma ordinary_of_text (h : v.WellFormed) (hlen : v.text.length ≤ maxUnits)
    (hids : ∀ a ∈ v.prerelease, Grammar.strict.isIdentifier a.text = true)
    (hnum : ∀ t, .word t ∈ v.prerelease → Numeral.isDigits t = false) (hbuild : v.build = [])
    (hgrammar : v.grammar = .strict) : v.Ordinary := by
  refine ⟨⟨v.text, ?_⟩, hnum⟩
  rw [h.ofText_text, if_neg (Nat.not_lt.mpr hlen), if_pos (List.all_eq_true.mpr hids), ← hbuild,
    ← hgrammar]

/-- The numbers of a safe release have few digits. -/
lemma length_text_le {r : Release} (h : r.Safe) : r.text.length ≤ 50 := by
  have hmajor := Numeral.length_text_le h.major_le
  have hminor := Numeral.length_text_le h.minor_le
  have hpatch := Numeral.length_text_le h.patch_le
  simp only [Release.text, List.length_append, List.length_cons]
  omega

/-- Safe releases are ordinary versions. -/
lemma ordinary_ofRelease {r : Release} (h : r.Safe) : (ofRelease r).Ordinary := by
  refine ordinary_of_text ⟨h, nofun⟩ ?_ nofun nofun rfl rfl
  rw [text_ofRelease]
  exact Nat.le_trans (length_text_le h) (by decide)

/-- The lowest prerelease of a safe release is an ordinary version. -/
lemma ordinary_lowestPrerelease {r : Release} (h : r.Safe) : (lowestPrerelease r).Ordinary := by
  have hzero : (Identifier.number 0).WellFormed := Identifier.wellFormed_number (by decide)
  refine ordinary_of_text ⟨h, List.forall_mem_singleton.mpr hzero⟩ ?_
    (List.forall_mem_singleton.mpr rfl) ?_ rfl rfl
  · have hlen := length_text_le h
    have : (lowestPrerelease r).text = r.text ++ ['-', '0'] := rfl
    rw [this, List.length_append]
    exact Nat.le_trans (Nat.add_le_add_right hlen _) (by decide)
  · exact fun t ht => nomatch List.mem_singleton.mp ht

/-- The release with the next patch is there only while that is safe. -/
lemma eq_of_nextPatch {r : Release} {w : Semver} (h : nextPatch r = .ok w) :
    w = ofRelease { r with patch := r.patch + 1 } ∧ r.patch < Numeral.maxSafe := by
  simp only [nextPatch] at h
  split at h
  · next hlt =>
    cases h
    exact ⟨rfl, hlt⟩
  · cases h

def extended (v : Semver) : Semver :=
  ⟨v.release, v.prerelease ++ [.number 0], [], .strict⟩

lemma WellFormed.extended (h : v.WellFormed) : v.extended.WellFormed := by
  refine ⟨h.release, ?_⟩
  intro a ha
  rcases List.mem_append.mp ha with ha | ha
  · exact h.identifiers a ha
  · rw [List.mem_singleton.mp ha]
    exact Identifier.wellFormed_number (by decide)

/-- One more identifier `0` makes a text longer by a dot and a digit. -/
lemma text_extended (hp : v.isPrerelease = true) : v.extended.text = v.text ++ ['.', '0'] := by
  rw [text_eq, text_eq, extended, List.map_append, List.map_singleton,
    prereleaseText_append _ (by simpa [isPrerelease] using hp)]
  simp only [List.append_assoc, List.cons_append]
  rfl

/-- The prerelease directly above a given one, if it can be read, has the identifier `0` more. -/
lemma WellFormed.of_nextPrerelease (h : v.WellFormed) (hp : v.isPrerelease = true) {w : Semver}
    (hw : v.nextPrerelease = .ok w) :
    w.Comparable ∧ w.release = v.release ∧ w.prerelease = v.prerelease ++ [.number 0] := by
  obtain rfl : w = v.extended := by
    refine h.extended.eq_of_ofText_text ?_
    rw [← hw, nextPrerelease, text_extended hp]
  exact ⟨comparable_of_ofText hw, rfl, rfl⟩

/-- The prerelease directly above a regular version is regular. -/
lemma Regular.of_nextPrerelease (h : v.Regular) (hp : v.isPrerelease = true) {w : Semver}
    (hw : v.nextPrerelease = .ok w) :
    w.Regular ∧ w.release = v.release ∧ w.prerelease = v.prerelease ++ [.number 0] := by
  obtain ⟨hcomparable, hrelease, hprerelease⟩ := h.wellFormed.of_nextPrerelease hp hw
  refine ⟨⟨hcomparable, fun t ht => ?_⟩, hrelease, hprerelease⟩
  rw [hprerelease] at ht
  rcases List.mem_append.mp ht with ht | ht
  · exact h.words t ht
  · cases List.mem_singleton.mp ht

/-- The version `1.2.0-beta.3`. -/
def sample : Semver := ⟨⟨1, 2, 0⟩, [.word ['b', 'e', 't', 'a'], .number 3], [], .strict⟩

lemma ordinary_sample : sample.Ordinary := by
  refine ⟨⟨['1', '.', '2', '.', '0', '-', 'b', 'e', 't', 'a', '.', '3'], by decide⟩, ?_⟩
  intro t ht
  obtain rfl : t = ['b', 'e', 't', 'a'] := by simpa [sample] using ht
  decide

end Semver

end VersionConstraints
