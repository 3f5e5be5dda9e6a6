import VersionConstraints.Proofs.Expression.Commas
import VersionConstraints.Proofs.Expression.Operands
import VersionConstraints.Proofs.Range.Single

/-!
# Commas

A comma stands for both of its operands: operands that are joined by commas are a range expression
if all of them are, and a release is in its range if it is in all of theirs. This holds of operands
that are complete. A comma becomes a blank, and what a blank stands between is not always an operand
of the comma: the hyphen of two versions is only found if they are the whole alternative, and an
operator at the end of an operand takes the version of the next one.
-/

namespace VersionConstraints

namespace Range

open Expression

variable {cs t : Text} {ps : List Text} {o : Option Range} {is : Range} {v : Semver}

/-! ### One alternative -/

lemma exists_contains_toList {i : Option Interval} (hi : ∀ j ∈ i, j.Comparable)
    (hv : v.Comparable) :
    Yields (contains v i.toList) fun ok => ok = true ↔ ∃ j ∈ i, j.contains v = .ok true := by
  cases i with
  | none => exact .ok (by simp)
  | some j =>
    obtain ⟨ok, hok⟩ := (hi j rfl).exists_contains hv
    rw [Option.toList_some, contains, hok]
    cases ok <;> exact .ok (by simp [hok])

section Single

variable (hjoin : withoutCommas? (Text.trim cs) = some t) (hbar : '|' ∉ t)
  (h : ofText .strict cs = .ok o)

include hjoin hbar h

/-- An expression of one alternative is one if all its conditions are comparators. -/
lemma isSome_iff_conditions :
    o.isSome = true ↔
      ∀ w ∈ conditions (Text.normalize t), ∃ c, Comparator.ofText .strict w = .ok c := by
  rw [← exists_alternative_iff]
  cases ha : alternative .strict (Text.normalize t) with
  | error f =>
    rw [ofText_of_alternative_error hjoin hbar ha] at h
    cases h
    simp
  | ok a =>
    rw [ofText_of_alternative hjoin hbar ha] at h
    obtain ⟨i, -, h⟩ := bind_eq_ok.mp h
    cases h
    simp

/-- The range of an expression of one alternative has the releases that satisfy its conditions. -/
lemma contains_iff_conditions (his : is ∈ o) (hv : v.Comparable)
    (hrelease : v.isPrerelease = false) :
    Yields (contains v is) fun ok =>
      ok = true ↔ ∀ w ∈ conditions (Text.normalize t), Admits v w := by
  cases ha : alternative .strict (Text.normalize t) with
  | error f =>
    rw [ofText_of_alternative_error hjoin hbar ha] at h
    cases h
    cases his
  | ok a =>
    rw [ofText_of_alternative hjoin hbar ha] at h
    obtain ⟨i, hi, h⟩ := bind_eq_ok.mp h
    cases h
    cases his
    have hcomparable : ∀ c ∈ a, c.Comparable :=
      fun c hc => (readWith_of_alternative ha c hc).comparable
    have hreread : ∀ c ∈ a.reread, c.Comparable := by
      intro c hc
      obtain ⟨d, hd, rfl⟩ := List.mem_map.mp (Alternative.simplify_subset _ hc)
      exact Comparator.comparable_reread (hcomparable d hd)
    have hbounds : ∀ j ∈ i, j.Comparable := by
      rintro j rfl
      exact (Interval.normal_of_ofAlternative hreread hi).1
    apply (exists_contains_toList hbounds hv).imp
    intro ok hok
    rw [hok, Interval.contains_ofAlternative_iff hrelease hreread hv hi,
      Alternative.forall_satisfies_reread hrelease hcomparable,
      forall_satisfies_alternative hrelease ha]

/-- A release is in the range of an expression of one alternative if it satisfies its conditions. -/
lemma exists_contains_iff_conditions (hv : v.Comparable) (hrelease : v.isPrerelease = false) :
    (∃ is, ofText .strict cs = .ok (some is) ∧ contains v is = .ok true) ↔
      ∀ w ∈ conditions (Text.normalize t), Admits v w := by
  constructor
  · rintro ⟨is, his, hcontains⟩
    exact (contains_iff_conditions hjoin hbar his rfl hv hrelease).eq_ok_true_iff.mp hcontains
  · intro hadmits
    have hsome : o.isSome = true := by
      rw [isSome_iff_conditions hjoin hbar h]
      intro w hw
      obtain ⟨c, hc, -⟩ := hadmits w hw
      exact ⟨c, hc⟩
    obtain ⟨is, rfl⟩ := Option.isSome_iff_exists.mp hsome
    exact ⟨is, h, (contains_iff_conditions hjoin hbar h rfl hv hrelease).eq_ok_true_iff.mpr hadmits⟩

end Single

/-! ### Operands -/

/-- Let none of some operands be a hyphen between versions, nor all of them together, and let each end
before the next one begins. Joined by commas they are a range expression if all of them are, and then
a release is in its range if it is in all of theirs. -/
theorem contains_commas_iff (hne : ps ≠ []) (hcomma : ∀ p ∈ ps, ',' ∉ p) (hbar : ∀ p ∈ ps, '|' ∉ p)
    (hblank : ∀ p ∈ ps, Text.trim p ≠ [])
    (halone : ∀ p ∈ ps, ¬ IsHyphenRange p) (htogether : ¬ IsHyphenRange ([' '].intercalate ps))
    (hends : ps.IsChain EndsBefore) (hread : ∀ p ∈ ps, ∃ o, ofText .strict p = .ok o)
    (hjoined : ofText .strict ([','].intercalate ps) = .ok o) :
    (o.isSome = true ↔ ∀ p ∈ ps, ∃ js, ofText .strict p = .ok (some js)) ∧
      ∀ is ∈ o, ∀ v : Semver, v.Comparable → v.isPrerelease = false →
        Yields (contains v is) fun ok => ok = true ↔
          ∀ p ∈ ps, ∃ js, ofText .strict p = .ok (some js) ∧ contains v js = .ok true := by
  have hnonblank : ∀ p ∈ ps, Text.words p ≠ [] :=
    fun p hp => mt Text.trim_eq_nil_of_words (hblank p hp)
  obtain ⟨t, ht, hbart, hwordst⟩ := exists_withoutCommas? hcomma hbar hnonblank hne
  have hconditions : conditions (Text.normalize t) =
      ps.flatMap fun p => conditions (Text.normalize p) := by
    rw [Text.normalize, hwordst, ← Text.words_intercalate,
      ← conditions_flatMap hne hnonblank hends halone htogether]
    rfl
  -- Alone, an operand is read with the conditions that it has among the others.
  have hoperand : ∀ p ∈ ps, ∃ t, withoutCommas? (Text.trim p) = some t ∧ '|' ∉ t ∧
      Text.normalize t = Text.normalize p := by
    intro p hp
    obtain ⟨t, ht, hbart, hwordst⟩ := exists_withoutCommas?
      (List.forall_mem_singleton.mpr (hcomma p hp)) (List.forall_mem_singleton.mpr (hbar p hp))
      (List.forall_mem_singleton.mpr (hnonblank p hp)) (List.cons_ne_nil p [])
    rw [List.intercalate_singleton] at ht
    rw [List.flatMap_singleton] at hwordst
    exact ⟨t, ht, hbart, by rw [Text.normalize, hwordst, Text.normalize]⟩
  constructor
  · rw [isSome_iff_conditions ht hbart hjoined, hconditions, List.forall_mem_flatMap]
    refine forall₂_congr fun p hp => ?_
    obtain ⟨t, ht, hbart, hnormalize⟩ := hoperand p hp
    obtain ⟨o, ho⟩ := hread p hp
    rw [← hnormalize, ← isSome_iff_conditions ht hbart ho, ho]
    cases o <;> simp
  · intro is his v hv hrelease
    apply (contains_iff_conditions ht hbart hjoined his hv hrelease).imp
    intro ok hok
    rw [hok, hconditions, List.forall_mem_flatMap]
    refine forall₂_congr fun p hp => ?_
    obtain ⟨t, ht, hbart, hnormalize⟩ := hoperand p hp
    obtain ⟨o, ho⟩ := hread p hp
    rw [← hnormalize, exists_contains_iff_conditions ht hbart ho hv hrelease]

/-- Three operands, one of them with white space around it and with a build for a word. -/
def sampleOperands : List Text :=
  ["^1.2.3".toList, " >=1.4.0 +7 ".toList, "<1.9.0".toList]

def sampleJoined : Range :=
  [⟨some ⟨.ofRelease ⟨1, 4, 0⟩, true⟩, some ⟨.ofRelease ⟨1, 9, 0⟩, false⟩⟩]

theorem contains_commas_iff_sample :
    contains (.ofRelease ⟨1, 5, 0⟩) sampleJoined = .ok true ↔
      ∀ p ∈ sampleOperands, ∃ js, ofText .strict p = .ok (some js) ∧
        contains (.ofRelease ⟨1, 5, 0⟩) js = .ok true := by
  have hread : ∀ p ∈ sampleOperands, ∃ o, ofText .strict p = .ok o := by
    refine List.forall_mem_cons.mpr ⟨⟨some [⟨some ⟨.ofRelease ⟨1, 2, 3⟩, true⟩,
      some ⟨.ofRelease ⟨2, 0, 0⟩, false⟩⟩], by decide +kernel⟩, ?_⟩
    refine List.forall_mem_cons.mpr ⟨⟨some [⟨some ⟨.ofRelease ⟨1, 4, 0⟩, true⟩, none⟩],
      by decide +kernel⟩, ?_⟩
    exact List.forall_mem_singleton.mpr
      ⟨some [⟨none, some ⟨.ofRelease ⟨1, 9, 0⟩, false⟩⟩], by decide +kernel⟩
  have hjoined : ofText .strict ([','].intercalate sampleOperands) = .ok (some sampleJoined) := by
    decide +kernel
  have hends : sampleOperands.IsChain EndsBefore := by
    have hfirst : (Text.visibleWords "^1.2.3".toList).getLast? = some "^1.2.3".toList := by
      decide +kernel
    have hsecond : (Text.visibleWords " >=1.4.0 +7 ".toList).getLast? = some ">=1.4.0".toList := by
      decide +kernel
    refine List.isChain_cons_cons.mpr ⟨?_, List.isChain_cons_cons.mpr ⟨?_, .singleton _⟩⟩
    · exact .of_getLast? hfirst (by decide) (c := '3') (by decide) (by decide) (by decide +kernel)
    · exact .of_getLast? hsecond (by decide) (c := '0') (by decide) (by decide) (by decide +kernel)
  have hspec := contains_commas_iff (List.cons_ne_nil _ _) (by decide +kernel) (by decide +kernel)
    (by decide +kernel) (by decide +kernel) (by decide +kernel) hends hread hjoined
  exact (hspec.2 _ rfl _ (Semver.comparable_ofRelease (by decide)) rfl).eq_ok_true_iff

/-- A hyphen between versions is an operand, but not in front of a comma. -/
theorem ofText_hyphen_comma :
    ofText .strict "1.0.0 - 2.0.0".toList =
        .ok (some [⟨some ⟨.ofRelease ⟨1, 0, 0⟩, true⟩, some ⟨.ofRelease ⟨2, 0, 0⟩, true⟩⟩]) ∧
      ofText .strict "<1.5.0".toList =
        .ok (some [⟨none, some ⟨.ofRelease ⟨1, 5, 0⟩, false⟩⟩]) ∧
      ofText .strict "1.0.0 - 2.0.0,<1.5.0".toList = .ok none := by
  decide +kernel

/-- An operator in front of a comma takes the version behind it. -/
example : ofText .strict ">=".toList = .ok none ∧
    ofText .strict ">=,1.2.3".toList = ofText .strict ">=1.2.3".toList := by
  decide +kernel

end Range

end VersionConstraints
