import VersionConstraints.Proofs.Semver.Canonical
import VersionConstraints.Proofs.Semver.Precedence

/-!
# Versions that compare as equal

Versions with one canonical text compare as equal. So do versions that are different, if they differ
first at two numerals that are rounded to the same number, whatever follows behind these. There are
no other ones.
-/

namespace VersionConstraints

/-! ### Identifiers -/

namespace Identifier

variable {a b : Identifier} {as bs : List Identifier}

/-- Whether two identifiers are different numerals that are rounded to the same number. Both are too
large to be read as numbers then. -/
def Confused (a b : Identifier) : Prop :=
  ∃ s t, a = .word s ∧ b = .word t ∧ s ≠ t ∧ Numeral.isDigits s = true ∧
    Numeral.isDigits t = true ∧ Numeral.round (Numeral.value s) = Numeral.round (Numeral.value t)

lemma Confused.symm (h : a.Confused b) : b.Confused a := by
  obtain ⟨s, t, hs, ht, hne, hdigits, hdigits', hround⟩ := h
  exact ⟨t, s, ht, hs, hne.symm, hdigits', hdigits, hround.symm⟩

/-- Identifiers that compare as equal are equal or confused. -/
lemma order_eq_iff (ha : a.WellFormed) (hb : b.WellFormed) :
    a.order b = .eq ↔ a = b ∨ a.Confused b := by
  rw [(order_compares a b).eq_eq]
  constructor
  · intro hrank
    by_cases hword : ∀ t, b = .word t → Numeral.isDigits t = false
    · exact .inl (ha.apart hb hword hrank)
    · simp only [not_forall, Bool.not_eq_false] at hword
      obtain ⟨t, rfl, ht⟩ := hword
      by_cases hword' : ∀ s, a = .word s → Numeral.isDigits s = false
      · exact .inl (hb.apart ha hword' hrank.symm).symm
      · simp only [not_forall, Bool.not_eq_false] at hword'
        obtain ⟨s, rfl, hs⟩ := hword'
        by_cases heq : s = t
        · exact .inl (congrArg word heq)
        · rw [rank_numeral hs, rank_numeral ht] at hrank
          exact .inr ⟨s, t, rfl, rfl, heq, hs, ht, Sum.inl.inj hrank⟩
  · rintro (rfl | ⟨s, t, rfl, rfl, -, hs, ht, hround⟩)
    · rfl
    · rw [rank_numeral hs, rank_numeral ht, hround]

/-- Whether two lists differ first at confused identifiers. -/
def ListConfused (as bs : List Identifier) : Prop :=
  ∃ (same : List Identifier) (a b : Identifier) (as' bs' : List Identifier),
    as = same ++ a :: as' ∧ bs = same ++ b :: bs' ∧ a.Confused b

/-- Behind a common identifier it is the next ones that matter. -/
lemma listConfused_cons_self : ListConfused (a :: as) (a :: bs) ↔ ListConfused as bs := by
  constructor
  · rintro ⟨same, b, c, bs', cs', hb, hc, hconfused⟩
    cases same with
    | nil =>
      obtain ⟨rfl, -⟩ := List.cons.inj hb
      obtain ⟨rfl, -⟩ := List.cons.inj hc
      obtain ⟨s, t, rfl, heq, hne, -⟩ := hconfused
      exact absurd (word.inj heq) hne
    | cons d same =>
      exact ⟨same, b, c, bs', cs', (List.cons.inj hb).2, (List.cons.inj hc).2, hconfused⟩
  · rintro ⟨same, b, c, bs', cs', rfl, rfl, hconfused⟩
    exact ⟨a :: same, b, c, bs', cs', rfl, rfl, hconfused⟩

/-- Behind the first difference nothing matters. -/
lemma listConfused_cons_of_ne (h : a ≠ b) : ListConfused (a :: as) (b :: bs) ↔ a.Confused b := by
  constructor
  · rintro ⟨same, c, d, cs', ds', hc, hd, hconfused⟩
    cases same with
    | nil =>
      obtain ⟨rfl, -⟩ := List.cons.inj hc
      obtain ⟨rfl, -⟩ := List.cons.inj hd
      exact hconfused
    | cons e same =>
      exact absurd ((List.cons.inj hc).1.trans (List.cons.inj hd).1.symm) h
  · intro hconfused
    exact ⟨[], a, b, as, bs, rfl, rfl, hconfused⟩

/-- Lists that compare as equal are equal or differ first at confused identifiers. -/
theorem listOrder_eq_iff (has : ∀ a ∈ as, a.WellFormed) (hbs : ∀ b ∈ bs, b.WellFormed) :
    listOrder as bs = .eq ↔ as = bs ∨ ListConfused as bs := by
  induction as generalizing bs with
  | nil =>
    have hnot : ¬ ListConfused [] bs := by
      rintro ⟨same, a, b, as', bs', hnil, -⟩
      simp at hnil
    cases bs with
    | nil => exact iff_of_true rfl (.inl rfl)
    | cons b bs => exact iff_of_false nofun (not_or.mpr ⟨nofun, hnot⟩)
  | cons a as ih =>
    obtain ⟨ha, htail⟩ := List.forall_mem_cons.mp has
    cases bs with
    | nil =>
      refine iff_of_false nofun (not_or.mpr ⟨nofun, ?_⟩)
      rintro ⟨same, b, c, bs', cs', -, hnil, -⟩
      simp at hnil
    | cons b bs =>
      obtain ⟨hb, htail'⟩ := List.forall_mem_cons.mp hbs
      rw [listOrder]
      by_cases heq : a = b
      · subst heq
        rw [if_pos rfl, ih htail htail', listConfused_cons_self, List.cons_eq_cons, and_iff_right rfl]
      · rw [if_neg heq, order_eq_iff ha hb, or_iff_right heq, listConfused_cons_of_ne heq]
        exact (or_iff_right fun h => heq (List.cons.inj h).1).symm

end Identifier

/-! ### Versions -/

namespace Semver

variable {v w : Semver}

/-- Whether two versions are prereleases of one release that differ first at confused identifiers. -/
def Confused (v w : Semver) : Prop :=
  v.release = w.release ∧ Identifier.ListConfused v.prerelease w.prerelease

lemma Confused.symm (h : v.Confused w) : w.Confused v := by
  obtain ⟨hrelease, same, a, b, as, bs, hv, hw, hab⟩ := h
  exact ⟨hrelease.symm, same, b, a, bs, as, hw, hv, hab.symm⟩

/-- The canonical text of a version tells its release and its prerelease. -/
lemma Comparable.text_eq_iff (hv : v.Comparable) (hw : w.Comparable) :
    v.text = w.text ↔ v.release = w.release ∧ v.prerelease = w.prerelease := by
  constructor
  · intro h
    obtain ⟨hrelease, hprerelease, -⟩ := Semver.mk.inj (hv.canonical_eq_of_text_eq hw h)
    exact ⟨hrelease, hprerelease⟩
  · rintro ⟨hrelease, hprerelease⟩
    rw [text_eq, text_eq, hrelease, hprerelease]

/-- Versions that compare as equal have one canonical text or are confused. -/
theorem Comparable.order_eq_iff (hv : v.Comparable) (hw : w.Comparable) :
    v.order w = .eq ↔ v.text = w.text ∨ v.Confused w := by
  have hids := hv.wellFormed.identifiers
  have hids' := hw.wellFormed.identifiers
  rw [hv.text_eq_iff hw, Confused, ← and_or_left, order, Ordering.then_eq_eq,
    (compares_compare v.release w.release).eq_eq]
  refine and_congr_right fun _ => ?_
  cases hp : v.prerelease with
  | nil =>
    cases hq : w.prerelease with
    | nil => exact iff_of_true rfl (.inl rfl)
    | cons b bs =>
      refine iff_of_false (by rintro ⟨⟩) (not_or.mpr ⟨(List.cons_ne_nil b bs).symm, ?_⟩)
      rintro ⟨same, a, b, as', bs', hnil, -⟩
      simp at hnil
  | cons a as =>
    cases hq : w.prerelease with
    | nil =>
      refine iff_of_false (by rintro ⟨⟩) (not_or.mpr ⟨List.cons_ne_nil a as, ?_⟩)
      rintro ⟨same, b, c, bs', cs', -, hnil, -⟩
      simp at hnil
    | cons b bs =>
      rw [prereleaseOrder]
      exact Identifier.listOrder_eq_iff (hp ▸ hids) (hq ▸ hids')

/-- An ordinary version is not taken for another one. -/
lemma Regular.not_confused (hv : v.Regular) : ¬ v.Confused w := by
  rintro ⟨-, same, a, b, as', bs', hp, -, s, t, rfl, -, -, hs, -⟩
  have hword := hv.words s (by rw [hp]; simp)
  rw [hs] at hword
  cases hword

end Semver

end VersionConstraints
