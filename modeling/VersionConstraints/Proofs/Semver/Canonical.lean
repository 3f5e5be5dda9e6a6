import Mathlib.Data.List.Induction
import VersionConstraints.Proofs.Semver.Reading

/-!
# Canonical texts are read

The strict grammar takes numerals without leading zeros only, so the canonical text of a version
that was read strictly stands in the text it was read from. It is not longer than that text, and can
be read itself.
-/

namespace VersionConstraints

/-! ### Numerals -/

namespace Numeral

lemma digitChar_of_isDigit {c : Char} (h : c.isDigit = true) :
    c.toNat - 48 < 10 ∧ Nat.digitChar (c.toNat - 48) = c := by
  simp only [Char.isDigit, Bool.and_eq_true, decide_eq_true_eq] at h
  have hlow : 48 ≤ c.toNat := UInt32.le_iff_toNat_le.mp h.1
  have hhigh : c.toNat ≤ 57 := UInt32.le_iff_toNat_le.mp h.2
  have hlt : c.toNat - 48 < 10 := by omega
  refine ⟨hlt, Char.toNat_inj.mp ?_⟩
  rw [Nat.toNat_digitChar_of_lt_ten hlt]
  omega

/-- One more digit multiplies the value by ten and adds its own. -/
lemma value_append_singleton (ds : Text) (c : Char) :
    value (ds ++ [c]) = 10 * value ds + (c.toNat - 48) := by
  simp [value, Nat.ofDigitChars_append, Nat.ofDigitChars_cons]

/-- Digits without a leading zero are the digits of their value. -/
lemma text_value {ds : Text} (h : Grammar.strict.isNumeral ds = true) : text (value ds) = ds := by
  simp only [Grammar.isNumeral, isDigits, Bool.and_eq_true, Bool.not_eq_true',
    List.isEmpty_eq_false_iff, List.all_eq_true, decide_eq_true_eq, Bool.or_eq_true, bne_iff_ne,
    beq_iff_eq] at h
  obtain ⟨⟨⟨hne, hdigits⟩, -⟩, hzero⟩ := h
  induction ds using List.reverseRecOn with
  | nil => exact absurd rfl hne
  | append_singleton ds c ih =>
    obtain ⟨hlt, hchar⟩ := digitChar_of_isDigit (hdigits c (by simp))
    rw [value_append_singleton]
    by_cases hds : ds = []
    · subst hds
      simp only [value, Nat.ofDigitChars_nil, Nat.mul_zero, Nat.zero_add, List.nil_append]
      rw [text, Nat.toDigits_of_lt_base hlt, hchar]
    · have hhead : ds.head? ≠ some '0' := by
        rcases hzero with hzero | hzero
        · rwa [List.head?_append_of_ne_nil _ hds] at hzero
        · exact absurd (List.append_eq_singleton_iff.mp hzero) (by simp [hds])
      have hrec := ih (.inl hhead) hds (fun d hd => hdigits d (List.mem_append_left _ hd))
      have hpos : 0 < value ds := by
        apply Nat.pos_of_ne_zero
        intro hvalue
        rw [hvalue] at hrec
        rw [← hrec] at hhead
        exact hhead rfl
      rw [text, ← Nat.toDigits_append_toDigits (by decide) hpos hlt, Nat.toDigits_of_lt_base hlt,
        hchar]
      exact congrArg (· ++ [c]) hrec

end Numeral

/-! ### Identifiers -/

/-- Digits are no word. -/
lemma not_isWord_of_isDigits {t : Text} (h : Numeral.isDigits t = true) : isWord t = false := by
  have hdigits : ∀ c ∈ t, c.isDigit = true := by
    simp only [Numeral.isDigits, Bool.and_eq_true, List.all_eq_true] at h
    exact h.2
  obtain ⟨ds, -, heq⟩ := Text.exists_eq_append_dropUpTo Char.isDigit maxLeadingDigits t
  rw [isWord]
  split
  · rfl
  · next c rest hrest =>
    have hc : c.isDigit = true := hdigits c (by rw [heq, hrest]; simp)
    have hletter : isLetterOrHyphen c = false := by
      rw [← Bool.not_eq_true]
      intro hletter
      rcases (Bool.or_eq_true _ _).mp hletter with halpha | hhyphen
      · have hlt := (Numeral.digitChar_of_isDigit hc).1
        rcases (Bool.or_eq_true _ _).mp halpha with hupper | hlower
        · have : 65 ≤ c.toNat := UInt32.le_iff_toNat_le.mp (of_decide_eq_true hupper).1
          omega
        · obtain ⟨hle, -⟩ := (Bool.and_eq_true _ _).mp hlower
          have : 97 ≤ c.toNat := UInt32.le_iff_toNat_le.mp (of_decide_eq_true hle)
          omega
      · rw [beq_iff_eq.mp hhyphen] at hc
        cases hc
    rw [hletter, Bool.false_and, Bool.false_and]

/-- A strict identifier keeps its text when it is read. -/
lemma Identifier.text_ofText {t : Text} (h : Grammar.strict.isIdentifier t = true) :
    (ofText t).text = t := by
  rw [ofText]
  split
  · next hnumber =>
    rw [Grammar.isIdentifier, not_isWord_of_isDigits hnumber.1, Bool.false_or] at h
    exact Numeral.text_value h
  · rfl

lemma Identifier.map_text_map_ofText {ids : List Text}
    (h : ∀ t ∈ ids, Grammar.strict.isIdentifier t = true) :
    (ids.map ofText).map text = ids := by
  rw [List.map_map]
  exact (List.map_congr_left fun t ht => text_ofText (h t ht)).trans (List.map_id _)

/-! ### The parts of a text that was read -/

/-- The two parts of a cut text make it up again. -/
lemma Text.eq_of_cut {sep : Char} {cs s t : Text} (h : cut sep cs = (s, some t)) :
    cs = s ++ sep :: t := by
  obtain ⟨rfl, htail⟩ := Prod.mk.inj h
  cases hdrop : cs.dropWhile (· != sep) with
  | nil =>
    rw [hdrop] at htail
    cases htail
  | cons c t' =>
    rw [hdrop] at htail
    obtain rfl := Option.some.inj htail
    have hc : c = sep := by
      have := List.head?_dropWhile_not (· != sep) cs
      rw [hdrop] at this
      simpa using this
    subst hc
    rw [← hdrop, List.takeWhile_append_dropWhile]

lemma Text.eq_of_cut_none {sep : Char} {cs s : Text} (h : cut sep cs = (s, none)) : cs = s := by
  obtain ⟨rfl, htail⟩ := Prod.mk.inj h
  have hsplit := List.takeWhile_append_dropWhile (p := (· != sep)) (l := cs)
  cases hdrop : cs.dropWhile (· != sep) with
  | nil =>
    rw [hdrop, List.append_nil] at hsplit
    exact hsplit.symm
  | cons c t =>
    rw [hdrop] at htail
    cases htail

def buildText (ids : List Text) : Text :=
  if ids.isEmpty then [] else '+' :: ['.'].intercalate ids

namespace Grammar

/-- A strict prerelease is read from its own text. -/
lemma prereleaseText_of_prerelease? {cs : Text} {ids : List Text}
    (h : strict.prerelease? cs = some ids) : prereleaseText ids = cs := by
  simp only [prerelease?] at h
  split at h
  · cases h
    rfl
  · next cs =>
    simp only [identifiers?, Option.ite_none_right_eq_some, Option.some.injEq] at h
    obtain ⟨-, rfl⟩ := h
    rw [prereleaseText, if_neg (by simp), List.intercalate_splitOn]
  all_goals contradiction

/-- Strict qualifiers are read from the text of their prerelease and their build. -/
lemma eq_of_qualifiers? {cs : Text} {q : Qualifiers} (h : strict.qualifiers? cs = some q) :
    cs = prereleaseText q.prerelease ++ buildText q.build ∧
      ∀ t ∈ q.build, isBuildIdentifier t = true := by
  simp only [qualifiers?] at h
  split at h
  · next ids builds hprerelease hbuild =>
    cases h
    dsimp only
    rw [prereleaseText_of_prerelease? hprerelease]
    cases hcut : cs.cut '+' with
    | mk before behind =>
      rw [hcut] at hbuild
      cases behind with
      | none =>
        cases hbuild
        exact ⟨(Text.eq_of_cut_none hcut).trans (List.append_nil _).symm, List.forall_mem_nil _⟩
      | some rest =>
        simp only [build?, Option.ite_none_right_eq_some, Option.some.injEq] at hbuild
        obtain ⟨hall, rfl⟩ := hbuild
        refine ⟨?_, List.all_eq_true.mp hall⟩
        rw [buildText, if_neg (by simp), List.intercalate_splitOn]
        exact Text.eq_of_cut hcut
  · cases h

/-- A strict patch is read from its numeral and the text of its qualifiers. -/
lemma eq_of_patchUpTo? {cs : Text} {n : Nat} {p : Text × Qualifiers}
    (h : strict.patchUpTo? cs n = some p) :
    strict.isNumeral p.1 = true ∧ (∀ t ∈ p.2.build, isBuildIdentifier t = true) ∧
      cs = p.1 ++ (prereleaseText p.2.prerelease ++ buildText p.2.build) := by
  induction n with
  | zero => cases h
  | succ n ih =>
    rw [patchUpTo?] at h
    split at h
    · next q hq =>
      cases h
      split at hq
      · next hnumeral =>
        obtain ⟨heq, hbuild⟩ := eq_of_qualifiers? hq
        refine ⟨hnumeral, hbuild, ?_⟩
        rw [← heq, List.take_append_drop]
      · cases hq
    · exact ih h

/-- A text that was read strictly is a lead and then the parts that it was read as. -/
lemma exists_of_read? {cs : Text} {r : Reading} (h : strict.read? cs = some r) :
    (strict.isNumeral r.major = true ∧ strict.isNumeral r.minor = true ∧
      strict.isNumeral r.patch = true) ∧
    (∀ t ∈ r.qualifiers.build, isBuildIdentifier t = true) ∧
    ∃ lead : Text, (lead = [] ∨ lead = ['v']) ∧ cs = lead ++ (r.major ++ '.' :: (r.minor ++
      '.' :: (r.patch ++ (prereleaseText r.qualifiers.prerelease ++
        buildText r.qualifiers.build)))) := by
  have hlead : ∃ lead : Text, (lead = [] ∨ lead = ['v']) ∧ cs = lead ++ strict.dropLead cs := by
    unfold dropLead
    split
    · exact ⟨['v'], .inr rfl, rfl⟩
    · exact ⟨[], .inl rfl, rfl⟩
    · next hg => cases hg
  simp only [read?] at h
  split at h
  · cases h
  · next major rest hmajor =>
    split at h
    · cases h
    · next minor rest' hminor =>
      split at h
      · next hnumerals =>
        obtain ⟨p, hp, rfl⟩ := Option.map_eq_some_iff.mp h
        obtain ⟨hpatch, hbuild, hrest⟩ := eq_of_patchUpTo? hp
        obtain ⟨hnmajor, hnminor⟩ := (Bool.and_eq_true _ _).mp hnumerals
        obtain ⟨lead, hl, heq⟩ := hlead
        refine ⟨⟨hnmajor, hnminor, hpatch⟩, hbuild, lead, hl, heq.trans ?_⟩
        rw [Text.eq_of_cut hmajor, Text.eq_of_cut hminor, hrest]
      · cases h

end Grammar

namespace Text

lemma length_le_units16 (cs : Text) : cs.length ≤ units16 cs := by
  induction cs with
  | nil => exact Nat.le_refl 0
  | cons c cs ih =>
    rw [units16, List.length_cons]
    split <;> omega

lemma length_trim_le (cs : Text) : (trim cs).length ≤ cs.length := by
  rw [trim, List.length_reverse]
  refine ((List.dropWhile_sublist _).length_le).trans ?_
  rw [List.length_reverse]
  exact (List.dropWhile_sublist _).length_le

end Text

/-! ### Identifiers of canonical texts -/

/-- Strict identifiers are loose ones unless they are too long. -/
lemma Grammar.isIdentifier_loose {t : Text} (h : strict.isIdentifier t = true)
    (hlen : t.length ≤ Semver.maxUnits) : loose.isIdentifier t = true := by
  rw [isIdentifier, Bool.or_eq_true] at h ⊢
  refine h.imp_right fun hnumeral => ?_
  simp only [isNumeral, Bool.and_eq_true, decide_eq_true_eq] at hnumeral ⊢
  exact ⟨⟨hnumeral.1.1, hlen⟩, trivial⟩

lemma length_le_length_intercalate {sep t : Text} {ids : List Text} (h : t ∈ ids) :
    t.length ≤ (sep.intercalate ids).length := by
  induction ids with
  | nil => cases h
  | cons s ids ih =>
    by_cases hnil : ids = []
    · rw [hnil] at h ⊢
      rw [List.mem_singleton.mp h, List.intercalate_singleton]
    · rw [List.intercalate_cons_of_ne_nil hnil, List.length_append, List.length_append]
      rcases List.mem_cons.mp h with rfl | h
      · omega
      · have := ih h
        omega

/-- An identifier is no longer than the version. -/
lemma Semver.length_identifier_le (v : Semver) {a : Identifier} (ha : a ∈ v.prerelease) :
    a.text.length ≤ v.text.length := by
  have hp : v.isPrerelease = true := by simpa [isPrerelease] using List.ne_nil_of_mem ha
  have hle : a.text.length ≤ (['.'].intercalate (v.prerelease.map Identifier.text)).length :=
    length_le_length_intercalate (List.mem_map_of_mem ha)
  rw [text, if_pos hp, List.length_append, List.length_cons]
  omega

/-! ### Reading back -/

namespace Semver

variable {v w : Semver} {t : Text}

/-- The version that the canonical text of a version is read as: the strict one without a build. -/
def canonical (v : Semver) : Semver :=
  ⟨v.release, v.prerelease, [], .strict⟩

/-- A canonical version is its own canonical form. -/
@[simp] lemma canonical_canonical (v : Semver) : v.canonical.canonical = v.canonical := rfl

lemma eq_of_componentOfText {c : Component} {ds : Text} {n : Nat}
    (h : componentOfText c ds = .ok n) : n = Numeral.value ds := by
  simp only [componentOfText] at h
  split at h
  · exact (Except.ok.inj h).symm
  · cases h

/-- A version that was read strictly stands in the text that it was read from, between a lead and a
build. -/
theorem exists_of_ofText (h : ofText .strict t = .ok v) : ∃ lead : Text,
    (lead = [] ∨ lead = ['v']) ∧ t.trim = lead ++ (v.text ++ buildText v.build) ∧
      (∀ b ∈ v.build, isBuildIdentifier b = true) ∧
      (∀ a ∈ v.prerelease, Grammar.strict.isIdentifier a.text = true) ∧
      t.trim.length ≤ maxUnits := by
  simp only [ofText] at h
  split at h
  · cases h
  · next hunits =>
    split at h
    · cases h
    · next r hr =>
      obtain ⟨release, hrel, hv⟩ := bind_eq_ok.mp h
      obtain ⟨major, hmajor, hrel⟩ := bind_eq_ok.mp hrel
      obtain ⟨minor, hminor, hrel⟩ := bind_eq_ok.mp hrel
      obtain ⟨patch, hpatch, hrel⟩ := bind_eq_ok.mp hrel
      cases hrel
      cases hv
      obtain ⟨⟨hnmajor, hnminor, hnpatch⟩, hbuild, lead, hlead, heq⟩ := Grammar.exists_of_read? hr
      have hids := Grammar.isIdentifier_of_read? hr
      have htexts := Identifier.map_text_map_ofText hids
      refine ⟨lead, hlead, ?_, hbuild, ?_, ?_⟩
      · rw [text_eq, heq]
        dsimp only
        rw [htexts, eq_of_componentOfText hmajor, eq_of_componentOfText hminor,
          eq_of_componentOfText hpatch, Numeral.text_value hnmajor, Numeral.text_value hnminor,
          Numeral.text_value hnpatch]
        simp only [List.append_assoc, List.cons_append]
      · refine List.forall_mem_map.mpr fun t ht => ?_
        rw [Identifier.text_ofText (hids t ht)]
        exact hids t ht
      · exact (Text.length_trim_le t).trans
          ((Text.length_le_units16 t).trans (Nat.not_lt.mp hunits))

/-- A version that was read strictly is read back from its canonical text. -/
lemma ofText_text_of_ofText (h : ofText .strict t = .ok v) :
    ofText .strict v.text = .ok v.canonical := by
  obtain ⟨lead, -, htrim, -, hids, hlen⟩ := exists_of_ofText h
  have hle : v.text.length ≤ maxUnits := by
    refine le_trans ?_ hlen
    rw [htrim]
    simp only [List.length_append]
    omega
  rw [(wellFormed_of_ofText h).ofText_text, if_neg (Nat.not_lt.mpr hle),
    if_pos (List.all_eq_true.mpr hids)]
  rfl

/-- A version that can be compared is read back from its canonical text. -/
theorem Comparable.ofText_text (h : v.Comparable) : ofText .strict v.text = .ok v.canonical := by
  obtain ⟨g, t, ht⟩ := h.read
  cases g with
  | strict => exact ofText_text_of_ofText ht
  | loose =>
    obtain ⟨w, hw⟩ := h.strictly
    rw [Semver.strictly, grammar_of_ofText ht] at hw
    have hw' : ofText .strict v.text = .ok w := hw
    rw [hw', h.wellFormed.eq_of_ofText_text hw']
    rfl

/-- The version that a grammar reads the canonical text of a version as. -/
def canonicalIn (g : Grammar) (v : Semver) : Semver :=
  ⟨v.release, v.prerelease, [], g⟩

/-- The loose grammar reads what the strict one reads. -/
theorem Comparable.ofText_text_in (h : v.Comparable) (g : Grammar) :
    ofText g v.text = .ok (v.canonicalIn g) := by
  cases g with
  | strict => exact h.ofText_text
  | loose =>
    obtain ⟨hlen, hids⟩ := h.wellFormed.of_ofText_text h.ofText_text
    refine h.wellFormed.ofText_text_of_all hlen fun a ha => ?_
    exact Grammar.isIdentifier_loose (hids a ha) ((v.length_identifier_le ha).trans hlen)

/-- The canonical form of a comparable version can be compared, whichever grammar reads it. -/
lemma Comparable.canonicalIn (h : v.Comparable) (g : Grammar) : (v.canonicalIn g).Comparable := by
  refine ⟨⟨g, v.text, h.ofText_text_in g⟩, ?_⟩
  cases g with
  | strict => exact ⟨_, rfl⟩
  | loose => exact ⟨_, h.ofText_text⟩

/-- The canonical text of a version tells the version, but for its grammar and its build. -/
lemma Comparable.canonical_eq_of_text_eq (hv : v.Comparable) (hw : w.Comparable)
    (h : v.text = w.text) : v.canonical = w.canonical := by
  have hread := hv.ofText_text
  rw [h, hw.ofText_text] at hread
  exact (Except.ok.inj hread).symm

lemma Comparable.canonical (h : v.Comparable) : v.canonical.Comparable :=
  comparable_of_ofText h.ofText_text

/-- A comparison with a version is one with its canonical form. -/
lemma Comparable.compare_canonical (hv : v.Comparable) (hw : w.Comparable) :
    v.compare w.canonical = v.compare w := by
  rw [hv.compare_eq hw.canonical, hv.compare_eq hw]
  rfl

/-- A comparison of a version is one of its canonical form. -/
lemma Comparable.canonical_compare (hv : v.Comparable) (hw : w.Comparable) :
    v.canonical.compare w = v.compare w := by
  rw [hv.canonical.compare_eq hw, hv.compare_eq hw]
  rfl

lemma Regular.canonical (h : v.Regular) : v.canonical.Regular :=
  ⟨h.toComparable.canonical, h.words⟩

end Semver

end VersionConstraints
