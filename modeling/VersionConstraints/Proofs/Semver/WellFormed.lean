import Mathlib.Tactic.FinCases
import Mathlib.Tactic.Lemma
import VersionConstraints.Proofs.Outcome
import VersionConstraints.Semver.Parser

/-!
# Well-formed versions

A version is well formed when its numbers are safe and each of its identifiers is what its own text
is read as. Every version that either grammar reads is well formed. The text of a well-formed
version has plain characters only: letters, digits, hyphens and dots.
-/

namespace VersionConstraints

/-! ### Characters -/

/-- A character of a canonical version text. -/
def isPlain (c : Char) : Bool := isIdentifierChar c || c == '.'

lemma toNat_lt_of_isPlain {c : Char} (h : isPlain c = true) : 0x2D ≤ c.toNat ∧ c.toNat < 0x80 := by
  have hand {p q : Prop} [Decidable p] [Decidable q] (hpq : (decide p && decide q) = true) :
      p ∧ q := by
    simpa using hpq
  have hrange {low high : UInt32} (hlow : 0x2D ≤ low.toNat) (hhigh : high.toNat < 0x80)
      (hc : low ≤ c.val ∧ c.val ≤ high) : 0x2D ≤ c.toNat ∧ c.toNat < 0x80 :=
    ⟨Nat.le_trans hlow (UInt32.le_iff_toNat_le.mp hc.1),
      Nat.lt_of_le_of_lt (UInt32.le_iff_toNat_le.mp hc.2) hhigh⟩
  rcases (Bool.or_eq_true _ _).mp h with h | h
  · rcases (Bool.or_eq_true _ _).mp h with h | h
    · rcases (Bool.or_eq_true _ _).mp h with h | hdigit
      · rcases (Bool.or_eq_true _ _).mp h with hupper | hlower
        · exact hrange (by decide) (by decide) (of_decide_eq_true hupper)
        · exact hrange (by decide) (by decide) (hand hlower)
      · exact hrange (by decide) (by decide) (hand hdigit)
    · rw [beq_iff_eq.mp h]
      decide
  · rw [beq_iff_eq.mp h]
    decide

/-- No plain character is white space. -/
lemma not_isBlank_of_isPlain {c : Char} (h : isPlain c = true) : isBlank c = false := by
  have hc := toNat_lt_of_isPlain h
  rw [← Bool.not_eq_true]
  intro hb
  obtain ⟨r, hr, hle⟩ := List.any_eq_true.mp hb
  simp only [Bool.and_eq_true, decide_eq_true_eq] at hle
  fin_cases hr <;> simp only at hle <;> omega

/-- The characters of identifiers are plain. -/
lemma isPlain_of_isIdentifierChar {c : Char} (h : isIdentifierChar c = true) :
    isPlain c = true := by
  simp [isPlain, h]

lemma isIdentifierChar_of_isDigit {c : Char} (h : c.isDigit = true) : isIdentifierChar c = true := by
  simp [isIdentifierChar, Char.isAlphanum, h]

lemma isIdentifierChar_of_isLetterOrHyphen {c : Char} (h : isLetterOrHyphen c = true) :
    isIdentifierChar c = true := by
  simp only [isLetterOrHyphen, Bool.or_eq_true] at h
  rcases h with h | h <;> simp [isIdentifierChar, Char.isAlphanum, h]

lemma ne_dot_of_isIdentifierChar {c : Char} (h : isIdentifierChar c = true) : c ≠ '.' := by
  rintro rfl
  revert h
  decide

lemma ne_plus_of_isPlain {c : Char} (h : isPlain c = true) : c ≠ '+' := by
  rintro rfl
  revert h
  decide

lemma not_isLead_of_isDigit {c : Char} (hc : c.isDigit = true) : isLead c = false := by
  have hplain := isPlain_of_isIdentifierChar (isIdentifierChar_of_isDigit hc)
  rw [← Bool.not_eq_true]
  intro hlead
  simp only [isLead, Bool.or_eq_true, beq_iff_eq] at hlead
  rcases hlead with (rfl | rfl) | hblank
  · cases hc
  · cases hc
  · rw [not_isBlank_of_isPlain hplain] at hblank
    cases hblank

namespace Text

/-- Each plain character takes one unit. -/
lemma units16_of_plain {cs : Text} (h : ∀ c ∈ cs, isPlain c = true) : units16 cs = cs.length := by
  induction cs with
  | nil => rfl
  | cons c cs ih =>
    obtain ⟨hc, hcs⟩ := List.forall_mem_cons.mp h
    have := toNat_lt_of_isPlain hc
    rw [units16, ih hcs, if_pos (by omega), List.length_cons, Nat.add_comm]

lemma dropWhile_isBlank_of_plain {cs : Text} (h : ∀ c ∈ cs, isPlain c = true) :
    cs.dropWhile isBlank = cs := by
  cases cs with
  | nil => rfl
  | cons c cs =>
    rw [List.dropWhile_cons_of_neg]
    simp [not_isBlank_of_isPlain (h c List.mem_cons_self)]

/-- Plain characters are not trimmed. -/
lemma trim_of_plain {cs : Text} (h : ∀ c ∈ cs, isPlain c = true) : trim cs = cs := by
  rw [trim, dropWhile_isBlank_of_plain h, dropWhile_isBlank_of_plain (by simpa using h),
    List.reverse_reverse]

/-- What is dropped at the front is characters of the class. -/
lemma exists_eq_append_dropUpTo (p : Char → Bool) (n : Nat) (cs : Text) :
    ∃ ds : Text, (∀ d ∈ ds, p d = true) ∧ cs = ds ++ dropUpTo p n cs := by
  fun_induction dropUpTo p n cs with
  | case1 cs => exact ⟨[], nofun, rfl⟩
  | case2 n => exact ⟨[], nofun, rfl⟩
  | case3 n c cs hc ih =>
    obtain ⟨ds, hds, heq⟩ := ih
    refine ⟨c :: ds, List.forall_mem_cons.mpr ⟨hc, hds⟩, ?_⟩
    rw [List.cons_append, ← heq]
  | case4 n c cs hc => exact ⟨[], nofun, rfl⟩

end Text

/-! ### Numerals -/

namespace Numeral

lemma isDigit_of_mem_text {n : Nat} {c : Char} (h : c ∈ text n) : c.isDigit = true :=
  Nat.isDigit_of_mem_toDigits (by decide) (by decide) h

lemma text_ne_nil (n : Nat) : text n ≠ [] := Nat.toDigits_ne_nil

/-- A number is written in digits. -/
@[simp] lemma isDigits_text (n : Nat) : isDigits (text n) = true := by
  simp only [isDigits, Bool.and_eq_true, Bool.not_eq_true', List.isEmpty_eq_false_iff,
    List.all_eq_true]
  exact ⟨text_ne_nil n, fun c => isDigit_of_mem_text⟩

/-- A number of two digits or more does not begin with a zero. -/
lemma head?_text {n : Nat} (h : n ≠ 0) : (text n).head? ≠ some '0' := by
  induction n using Nat.strongRecOn with
  | ind n ih =>
    by_cases hn : n < 10
    · rw [text, Nat.toDigits_of_lt_base hn]
      intro hd
      have hzero : n.digitChar = '0' := by simpa using hd
      have := congrArg Char.toNat hzero
      rw [Nat.toNat_digitChar_of_lt_ten hn] at this
      exact h (by simpa using this)
    · rw [text, Nat.toDigits_of_base_le (by decide) (by omega)]
      rw [List.head?_append_of_ne_nil _ Nat.toDigits_ne_nil]
      exact ih (n / 10) (by omega) (by omega)

/-- A safe number has at most sixteen digits. -/
lemma length_text_le {n : Nat} (h : n ≤ maxSafe) : (text n).length ≤ 16 := by
  rw [text, Nat.length_toDigits_le_iff (by decide) (by decide)]
  exact Nat.lt_of_le_of_lt h (by decide)

/-- A safe number is written as a numeral of either grammar. -/
lemma isNumeral_text {g : Grammar} {n : Nat} (h : n ≤ maxSafe) : g.isNumeral (text n) = true := by
  have hlen : (text n).length ≤ g.maxDigits := by
    refine Nat.le_trans (length_text_le h) ?_
    cases g <;> decide
  cases g with
  | loose => simp [Grammar.isNumeral, hlen]
  | strict =>
    simp only [Grammar.isNumeral, isDigits_text, Bool.true_and, Bool.and_eq_true, decide_eq_true_eq,
      Bool.or_eq_true, bne_iff_ne, beq_iff_eq]
    refine ⟨hlen, ?_⟩
    by_cases hn : n = 0
    · right
      rw [hn]
      rfl
    · exact .inl (head?_text hn)

end Numeral

/-! ### Identifiers -/

lemma isIdentifierChar_of_isWord {t : Text} (h : isWord t = true) :
    t ≠ [] ∧ ∀ c ∈ t, isIdentifierChar c = true := by
  obtain ⟨ds, hds, heq⟩ := Text.exists_eq_append_dropUpTo Char.isDigit maxLeadingDigits t
  simp only [isWord] at h
  split at h
  · cases h
  · next c rest hrest =>
    simp only [Bool.and_eq_true, List.all_eq_true] at h
    obtain ⟨⟨hc, hall⟩, -⟩ := h
    rw [hrest] at heq
    subst heq
    refine ⟨by simp, ?_⟩
    intro d hd
    rcases List.mem_append.mp hd with hd | hd
    · exact isIdentifierChar_of_isDigit (hds d hd)
    · rcases List.mem_cons.mp hd with rfl | hd
      · exact isIdentifierChar_of_isLetterOrHyphen hc
      · exact hall d hd

/-- Identifiers have characters of identifiers, and at least one. -/
lemma isIdentifierChar_of_isIdentifier {g : Grammar} {t : Text} (h : g.isIdentifier t = true) :
    t ≠ [] ∧ ∀ c ∈ t, isIdentifierChar c = true := by
  rcases (Bool.or_eq_true _ _).mp h with h | h
  · exact isIdentifierChar_of_isWord h
  · simp only [Grammar.isNumeral, Numeral.isDigits, Bool.and_eq_true, Bool.not_eq_true',
      List.isEmpty_eq_false_iff, List.all_eq_true] at h
    exact ⟨h.1.1.1, fun c hc => isIdentifierChar_of_isDigit (h.1.1.2 c hc)⟩

/-- An identifier that is read from its own text, which has characters of identifiers only. -/
structure Identifier.WellFormed (a : Identifier) : Prop where
  text_ne_nil : a.text ≠ []
  isIdentifierChar : ∀ c ∈ a.text, isIdentifierChar c = true
  ofText_text : ofText a.text = a

namespace Identifier

lemma wellFormed_number {n : Nat} (h : n < Numeral.maxSafe) : (number n).WellFormed where
  text_ne_nil := Numeral.text_ne_nil n
  isIdentifierChar c hc := isIdentifierChar_of_isDigit (Numeral.isDigit_of_mem_text hc)
  ofText_text := by simp [ofText, text, h]

/-- An identifier that is read is well formed. -/
lemma wellFormed_ofText {g : Grammar} {t : Text} (h : g.isIdentifier t = true) :
    (ofText t).WellFormed := by
  by_cases ht : Numeral.isDigits t = true ∧ Numeral.value t < Numeral.maxSafe
  · rw [ofText, if_pos ht]
    exact wellFormed_number ht.2
  · obtain ⟨hne, hall⟩ := isIdentifierChar_of_isIdentifier h
    rw [ofText, if_neg ht]
    exact ⟨hne, hall, by rw [ofText, text, if_neg ht]⟩

end Identifier

/-! ### Versions -/

structure Release.Safe (r : Release) : Prop where
  major_le : r.major ≤ Numeral.maxSafe
  minor_le : r.minor ≤ Numeral.maxSafe
  patch_le : r.patch ≤ Numeral.maxSafe

instance (r : Release) : Decidable r.Safe :=
  decidable_of_iff
    (r.major ≤ Numeral.maxSafe ∧ r.minor ≤ Numeral.maxSafe ∧ r.patch ≤ Numeral.maxSafe)
    ⟨fun ⟨hmajor, hminor, hpatch⟩ => ⟨hmajor, hminor, hpatch⟩,
      fun h => ⟨h.major_le, h.minor_le, h.patch_le⟩⟩

/-- A version with a safe release and well-formed identifiers. -/
structure Semver.WellFormed (v : Semver) : Prop where
  release : v.release.Safe
  identifiers : ∀ a ∈ v.prerelease, a.WellFormed

namespace Grammar

variable {g : Grammar}

lemma isIdentifier_of_identifiers? {cs : Text} {ids : List Text}
    (h : g.identifiers? cs = some ids) : ∀ t ∈ ids, g.isIdentifier t = true := by
  simp only [identifiers?, Option.ite_none_right_eq_some, Option.some.injEq] at h
  obtain ⟨hall, rfl⟩ := h
  simpa using hall

lemma isIdentifier_of_prerelease? {cs : Text} {ids : List Text}
    (h : g.prerelease? cs = some ids) : ∀ t ∈ ids, g.isIdentifier t = true := by
  simp only [prerelease?] at h
  split at h
  · cases h
    exact nofun
  · exact isIdentifier_of_identifiers? h
  · cases h
  · next cs =>
    cases hids : identifiers? .loose cs with
    | some ids' =>
      obtain rfl : ids' = ids := by simpa [hids] using h
      exact isIdentifier_of_identifiers? hids
    | none => exact isIdentifier_of_identifiers? (by simpa [hids] using h)
  · exact isIdentifier_of_identifiers? h

lemma isIdentifier_of_patchUpTo? {cs : Text} {n : Nat} {p : Text × Qualifiers}
    (h : g.patchUpTo? cs n = some p) : ∀ t ∈ p.2.prerelease, g.isIdentifier t = true := by
  induction n with
  | zero => cases h
  | succ n ih =>
    rw [patchUpTo?] at h
    split at h
    · next q hq =>
      cases h
      split at hq
      · simp only [qualifiers?] at hq
        split at hq
        · next hpre _ =>
          cases hq
          exact isIdentifier_of_prerelease? hpre
        · cases hq
      · cases hq
    · exact ih h

/-- The identifiers of a version text fit the grammar that reads it. -/
lemma isIdentifier_of_read? {cs : Text} {r : Reading} (h : g.read? cs = some r) :
    ∀ t ∈ r.qualifiers.prerelease, g.isIdentifier t = true := by
  simp only [read?] at h
  split at h
  · cases h
  · split at h
    · cases h
    · split at h
      · obtain ⟨p, hp, rfl⟩ := Option.map_eq_some_iff.mp h
        exact isIdentifier_of_patchUpTo? hp
      · cases h

end Grammar

namespace Semver

/-- The numbers of a version are safe. -/
lemma le_of_componentOfText {c : Component} {ds : Text} {n : Nat}
    (h : componentOfText c ds = .ok n) : n ≤ Numeral.maxSafe := by
  simp only [componentOfText] at h
  split at h
  · next hle =>
    cases h
    exact hle
  · cases h

/-- What a grammar reads is well formed. -/
theorem wellFormed_of_ofText {g : Grammar} {t : Text} {v : Semver} (h : ofText g t = .ok v) :
    v.WellFormed := by
  simp only [ofText] at h
  split at h
  · cases h
  · split at h
    · cases h
    · next r hr =>
      obtain ⟨release, hrel, hv⟩ := bind_eq_ok.mp h
      obtain ⟨major, hmajor, hrel⟩ := bind_eq_ok.mp hrel
      obtain ⟨minor, hminor, hrel⟩ := bind_eq_ok.mp hrel
      obtain ⟨patch, hpatch, hrel⟩ := bind_eq_ok.mp hrel
      cases hrel
      cases hv
      refine ⟨⟨le_of_componentOfText hmajor, le_of_componentOfText hminor,
        le_of_componentOfText hpatch⟩, fun a ha => ?_⟩
      obtain ⟨t, ht, rfl⟩ := List.mem_map.mp ha
      exact Identifier.wellFormed_ofText (Grammar.isIdentifier_of_read? hr t ht)

end Semver

end VersionConstraints
