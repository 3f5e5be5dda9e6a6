import VersionConstraints.Proofs.Expression.Superfluous
import VersionConstraints.Proofs.Range.Normal
import VersionConstraints.Proofs.Range.Rereading

/-!
# What a range has of its expression

An expression is read, written as canonical text and read again, and the second reading drops the
comparators that include the lowest release of all. So a range contains the versions that satisfy
one of the alternatives that were read first, unless such a comparator is among them: then it still
contains the right releases, but an alternative that is left without comparators takes away the
prereleases of all others.
-/

namespace VersionConstraints

/-! ### Regular comparators -/

lemma Semver.Regular.canonicalIn {v : Semver} (h : v.Regular) (g : Grammar) :
    (v.canonicalIn g).Regular :=
  ⟨h.toComparable.canonicalIn g, h.words⟩

namespace Comparator

variable {c : Comparator} {g : Grammar}

lemma Regular.rereadIn (h : c.Regular) (g : Grammar) : (c.rereadIn g).Regular := by
  cases c with
  | any => trivial
  | bounded o v =>
    rw [Comparator.rereadIn]
    split
    · trivial
    · exact Semver.Regular.canonicalIn h g

end Comparator

namespace Expression

variable {as : List Alternative} {g : Grammar} {cs : Text}

lemma regular_rereadIn (has : ∀ a ∈ as, ∀ c ∈ a, c.Regular) (g : Grammar) :
    ∀ a ∈ rereadIn g as, ∀ c ∈ a, c.Regular := by
  intro a ha c hc
  obtain ⟨b, hb, rfl⟩ := List.mem_map.mp (simplify_subset _ ha)
  obtain ⟨d, hd, rfl⟩ := List.mem_map.mp (Alternative.simplify_subset _ hc)
  exact (has b hb d hd).rereadIn g

/-- Alternatives with regular comparators can be read back. -/
lemma WellFormed.readable_of_regular (h : WellFormed as) (has : ∀ a ∈ as, ∀ c ∈ a, c.Regular) :
    Readable as :=
  h.readable fun a ha _ _ hv => (has a ha _ hv).comparable

/-- A version satisfies alternatives that are read back if it satisfies the comparators that
restrict one of them and, for a prerelease, all of them have such comparators. -/
theorem exists_satisfies_rereadIn {v : Semver} (h : Readable as)
    (halone : [.any] ∈ as → as = [[.any]]) (has : ∀ a ∈ as, ∀ c ∈ a, c.Regular) :
    (∃ a ∈ rereadIn g as, a.Satisfies v) ↔ (∃ a ∈ as, a.restricting.Satisfies v) ∧
      (v.isPrerelease = true → ∀ a ∈ as, a.restricting ≠ []) := by
  have hcomparable : ∀ a ∈ as, ∀ c ∈ a, c.Comparable := fun a ha c hc => (has a ha c hc).comparable
  have hreread : ∀ b ∈ as.map (Alternative.rereadIn g), ∀ c ∈ b, c.Comparable := by
    refine List.forall_mem_map.mpr fun a ha c hc => ?_
    obtain ⟨d, hd, rfl⟩ := List.mem_map.mp (Alternative.simplify_subset _ hc)
    exact (hcomparable a ha d hd).rereadIn g
  have hexists : (∃ b ∈ as.map (Alternative.rereadIn g), b.Satisfies v) ↔
      ∃ a ∈ as, a.restricting.Satisfies v := by
    simp only [List.mem_map, exists_exists_and_eq_and]
    exact exists_congr fun a => and_congr_right fun ha =>
      Alternative.satisfies_rereadIn (hcomparable a ha)
  rw [rereadIn, exists_satisfies_simplify hreread, hexists]
  refine and_congr_right fun hsome => imp_congr_right fun hp => ?_
  have hunrestricted : [.any] ∉ as := by
    intro hany
    rw [halone hany] at hsome
    obtain ⟨a, ha, hsatisfies⟩ := hsome
    rw [List.mem_singleton.mp ha, Alternative.restricting_eq_self (by decide),
      Alternative.satisfies_any, hp] at hsatisfies
    cases hsatisfies
  rw [List.mem_map, not_exists]
  refine forall_congr' fun a => ?_
  rw [not_and]
  refine imp_congr_right fun ha => not_congr ?_
  rw [Alternative.rereadIn_eq_any_iff g (h.readable a ha).wellFormed]
  exact or_iff_right fun hany => hunrestricted (hany ▸ ha)

/-- To releases it makes no difference which comparators restrict, and there is none if all do. -/
lemma exists_satisfies_restricting_iff {v : Semver} (h : WellFormed as)
    (has : ∀ a ∈ as, ∀ c ∈ a, c.Comparable)
    (hv : v.isPrerelease = false ∨ ∀ a ∈ as, ∀ c ∈ a, c.text ≠ fromZeroText) :
    (∃ a ∈ as, a.restricting.Satisfies v) ∧ (v.isPrerelease = true → ∀ a ∈ as, a.restricting ≠ []) ↔
      ∃ a ∈ as, a.Satisfies v := by
  have hsatisfies : ∀ a ∈ as, (a.restricting.Satisfies v ↔ a.Satisfies v) := by
    intro a ha
    rcases hv with hrelease | htext
    · exact Alternative.satisfies_restricting (has a ha) (Semver.not_belowReleases hrelease)
    · rw [Alternative.restricting_eq_self (htext a ha)]
  have hne : v.isPrerelease = true → ∀ a ∈ as, a.restricting ≠ [] := by
    intro hp a ha
    rcases hv with hrelease | htext
    · rw [hrelease] at hp
      cases hp
    · rw [Alternative.restricting_eq_self (htext a ha)]
      exact (h.wellFormed a ha).ne_nil
  rw [and_iff_left hne]
  exact exists_congr fun a => and_congr_right fun ha => hsatisfies a ha

end Expression

/-- Whether a text is a range expression that is read as some alternatives, before their canonical
text is read again. -/
def Expression.IsReadAs (g : Grammar) (cs : Text) (as : List Alternative) : Prop :=
  ∃ t, withoutCommas? cs.trim = some t ∧ alternatives g t = .ok as

/-- A text is read as one list of alternatives at most. -/
lemma Expression.IsReadAs.unique {g : Grammar} {cs : Text} {as bs : List Alternative}
    (has : IsReadAs g cs as) (hbs : IsReadAs g cs bs) : as = bs := by
  obtain ⟨t, ht, has⟩ := has
  obtain ⟨u, hu, hbs⟩ := hbs
  rw [ht] at hu
  cases hu
  exact Except.ok.inj (has.symm.trans hbs)

namespace Range

variable {g : Grammar} {cs : Text} {is : Range}

/-- A text that is no range expression is not read as alternatives. -/
lemma not_isReadAs_of_ofText_none {as : List Alternative} (h : ofText g cs = .ok none) :
    ¬ Expression.IsReadAs g cs as := by
  rintro ⟨t, ht, has⟩
  rw [ofText, ht, Option.bind_some, Expression.canonicalText?_eq has] at h
  obtain ⟨bs, -, h⟩ := bind_eq_ok.mp h
  obtain ⟨is, -, h⟩ := bind_eq_ok.mp h
  cases h

/-- The range of an expression contains the versions that satisfy the comparators that restrict one
of its alternatives, but no prerelease if one of them has no such comparators. -/
theorem exists_isReadAs_of_ofText (h : ofText g cs = .ok (some is)) :
    ∃ as, Expression.IsReadAs g cs as ∧ ((∀ a ∈ as, ∀ c ∈ a, c.Ordinary) →
      is.Regular ∧ ∀ v : Semver, v.Comparable → Yields (contains v is) fun ok =>
        ok = true ↔ (∃ a ∈ as, a.restricting.Satisfies v) ∧
          (v.isPrerelease = true → ∀ a ∈ as, a.restricting ≠ [])) := by
  obtain ⟨u, bs, hu, hbs, hfold⟩ := exists_alternatives_of_ofText h
  obtain ⟨t, ht, hcanonical⟩ := Option.bind_eq_some_iff.mp hu
  cases has : Expression.alternatives g t with
  | error f =>
    rw [Expression.canonicalText?, has] at hcanonical
    cases hcanonical
  | ok as =>
    refine ⟨as, ⟨t, ht, has⟩, fun hordinary => ?_⟩
    have hregular : ∀ a ∈ as, ∀ c ∈ a, c.Regular := fun a ha c hc =>
      (hordinary a ha c hc).regular (Expression.readWith_of_alternatives has a ha c hc)
    obtain ⟨hwell, halone⟩ := Expression.wellFormed_of_alternatives has
    have hreadable := hwell.readable_of_regular hregular
    rw [Expression.canonicalText?_eq has] at hcanonical
    cases hcanonical
    rw [hreadable.alternatives_display_in (.inl rfl)] at hbs
    cases hbs
    obtain ⟨his, -, hcontains⟩ :=
      ofAlternatives_spec (Expression.regular_rereadIn hregular g) hfold
    refine ⟨his, fun v hv => ⟨_, hcontains v hv, ?_⟩⟩
    exact decide_eq_true_iff.trans
      (Expression.exists_satisfies_rereadIn hreadable halone hregular)

/-- The range of an expression contains the releases that satisfy one of its alternatives, as they
are read first. It contains a prerelease that satisfies the comparators that restrict one of them,
if all of them have such comparators. So it contains exactly what satisfies one of the alternatives,
unless one of their comparators includes the lowest release of all. -/
theorem contains_ofText_iff (h : ofText g cs = .ok (some is)) : ∃ t as,
    Expression.withoutCommas? cs.trim = some t ∧ Expression.alternatives g t = .ok as ∧
      ((∀ a ∈ as, ∀ c ∈ a, c.Ordinary) → ∀ v : Semver, v.Comparable →
        ∃ ok, contains v is = .ok ok ∧
          (ok = true ↔ (∃ a ∈ as, a.restricting.Satisfies v) ∧
            (v.isPrerelease = true → ∀ a ∈ as, a.restricting ≠ [])) ∧
          (v.isPrerelease = false ∨ (∀ a ∈ as, ∀ c ∈ a, c.text ≠ Expression.fromZeroText) →
            (ok = true ↔ ∃ a ∈ as, a.Satisfies v))) := by
  obtain ⟨as, ⟨t, ht, has⟩, hspec⟩ := exists_isReadAs_of_ofText h
  refine ⟨t, as, ht, has, fun hordinary v hv => ?_⟩
  have hcomparable : ∀ a ∈ as, ∀ c ∈ a, c.Comparable := fun a ha c hc =>
    ((hordinary a ha c hc).regular
      (Expression.readWith_of_alternatives has a ha c hc)).comparable
  obtain ⟨ok, hok, hiff⟩ := (hspec hordinary).2 v hv
  refine ⟨ok, hok, hiff, fun hv => hiff.trans ?_⟩
  exact Expression.exists_satisfies_restricting_iff (Expression.wellFormed_of_alternatives has).1
    hcomparable hv

/-- An expression of which one alternative begins at the lowest release of all. -/
def fromZeroUnion : Text := ">=v0.0.0 || 1.2.0-beta.3".toList

def fromZeroAlternatives : List Alternative :=
  [[.bounded .atLeast (.ofRelease .zero)], [.bounded .equal .sample]]

/-- What `Range.fromZeroUnion` is read as first, and what its range is. -/
lemma readings_fromZeroUnion :
    Expression.withoutCommas? fromZeroUnion.trim = some fromZeroUnion ∧
      Expression.alternatives .strict fromZeroUnion = .ok fromZeroAlternatives ∧
        ofText .strict fromZeroUnion = .ok (some [⟨none, none⟩]) := by
  decide +kernel

theorem contains_ofText_iff_fromZero :
    ∃ ok, contains .sample [⟨none, none⟩] = .ok ok ∧
      (ok = true ↔ (∃ a ∈ fromZeroAlternatives, a.restricting.Satisfies .sample) ∧
        (Semver.sample.isPrerelease = true → ∀ a ∈ fromZeroAlternatives, a.restricting ≠ [])) := by
  obtain ⟨hjoin, halternatives, hread⟩ := readings_fromZeroUnion
  obtain ⟨t, as, ht, has, hspec⟩ := contains_ofText_iff hread
  obtain rfl : fromZeroUnion = t := Option.some.inj (hjoin.symm.trans ht)
  obtain rfl : fromZeroAlternatives = as :=
    Except.ok.inj (halternatives.symm.trans has)
  have hzero : (Comparator.bounded .atLeast (.ofRelease .zero)).Ordinary :=
    ⟨.ofRelease .zero, by decide, Semver.ordinary_ofRelease (by decide)⟩
  have hsample : (Comparator.bounded .equal .sample).Ordinary :=
    ⟨.sample, by decide, Semver.ordinary_sample⟩
  obtain ⟨ok, hok, hiff, -⟩ := hspec
    (List.forall_mem_cons.mpr ⟨List.forall_mem_singleton.mpr hzero,
      List.forall_mem_singleton.mpr (List.forall_mem_singleton.mpr hsample)⟩)
    .sample Semver.ordinary_sample.regular.toComparable
  exact ⟨ok, hok, hiff⟩

/-- A prerelease that satisfies one of the alternatives is lost, because another one is read back
as no restriction. -/
theorem fromZeroUnion_loses_prerelease :
    Semver.sample.Ordinary ∧ ofText .strict fromZeroUnion = .ok (some [⟨none, none⟩]) ∧
      Expression.alternatives .strict fromZeroUnion = .ok fromZeroAlternatives ∧
        (∃ a ∈ fromZeroAlternatives, a.Satisfies .sample) ∧
          contains .sample [⟨none, none⟩] = .ok false := by
  obtain ⟨-, halternatives, hread⟩ := readings_fromZeroUnion
  exact ⟨Semver.ordinary_sample, hread, halternatives, by decide, by decide⟩

end Range

end VersionConstraints
