import VersionConstraints.Diagnostics.Options
import VersionConstraints.Proofs.Constraint.Reachable
import VersionConstraints.Proofs.Range.TwoReadings

/-!
# Emptiness is exact

No version satisfies the empty constraint, and some version satisfies every other reachable one: a
range has a normal interval, and a normal interval with regular bounds contains a version.

A declared text comes to the empty constraint, with a warning, when nothing satisfies what restricts
its alternatives. Then nothing satisfies the text. The converse fails where the lowest release is
written as a lower bound that the second reading drops: such a text may be satisfied by nothing and
come to a range of prereleases of the lowest release.
-/

namespace VersionConstraints

/-! ### Ranges that are not empty -/

namespace Range

variable {is : Range} {i : Interval}

/-- A range contains what the span of one of its intervals holds. -/
lemma contains_of_mem {v : Semver} (his : is.Regular) (hi : i ∈ is) (hv : v.Comparable)
    (h : i.span.Holds v.precedence) : contains v is = .ok true := by
  obtain ⟨b, hb, hspec⟩ := contains_spec his hv
  rw [hb, hspec.mpr ⟨i.span, ⟨i, hi, rfl⟩, h⟩]

/-- A normal range with regular bounds contains an ordinary version, unless it has no intervals. -/
lemma Normal.exists_contains (h : is.Normal) (his : is.Regular) (hne : is ≠ []) :
    ∃ v : Semver, v.Ordinary ∧ contains v is = .ok true := by
  obtain ⟨i, hi⟩ := List.exists_mem_of_ne_nil is hne
  obtain ⟨v, hv, hholds⟩ := (h i hi).2.exists_holds (his i hi)
  exact ⟨v, hv, contains_of_mem his hi hv.regular.toComparable hholds⟩

/-- Whether a text is a range expression and no ordinary version satisfies one of its alternatives. -/
def Unsatisfiable (cs : Text) : Prop :=
  ∃ as, Expression.IsReadAs .strict cs as ∧ ∀ v : Semver, v.Ordinary → ∀ a ∈ as, ¬ a.Satisfies v

/-- Whether a text is a range expression and no ordinary version satisfies the comparators that
restrict one of its alternatives. -/
def Contradictory (cs : Text) : Prop :=
  ∃ as, Expression.IsReadAs .strict cs as ∧
    ∀ v : Semver, v.Ordinary → ∀ a ∈ as, ¬ a.restricting.Satisfies v

/-- Whether a comparator of a range expression has the lowest release as its inclusive lower bound. -/
def HasIdleComparator (cs : Text) : Prop :=
  ∃ as, Expression.IsReadAs .strict cs as ∧ ∃ a ∈ as, ∃ c ∈ a, c.text = Expression.fromZeroText

/-- Whether the comparators of a range expression have ordinary versions. -/
def HasOrdinaryComparators (cs : Text) : Prop :=
  ∀ as, Expression.IsReadAs .strict cs as → ∀ a ∈ as, ∀ c ∈ a, c.Ordinary

section Contradictions

variable {cs : Text} {as : List Alternative}

/-- Whether a text is contradictory can be told from the alternatives that it is read as. -/
lemma contradictory_iff (has : Expression.IsReadAs .strict cs as) :
    Contradictory cs ↔ ∀ v : Semver, v.Ordinary → ∀ a ∈ as, ¬ a.restricting.Satisfies v := by
  refine ⟨?_, fun hnone => ⟨as, has, hnone⟩⟩
  rintro ⟨bs, hbs, hnone⟩
  rwa [has.unique hbs]

lemma HasOrdinaryComparators.comparable (hcs : HasOrdinaryComparators cs)
    (has : Expression.IsReadAs .strict cs as) : ∀ a ∈ as, ∀ c ∈ a, c.Comparable := by
  intro a ha c hc
  have hordinary := hcs as has a ha c hc
  obtain ⟨t, -, hread⟩ := has
  exact (hordinary.regular (Expression.readWith_of_alternatives hread a ha c hc)).comparable

/-- What satisfies a text satisfies what restricts one of its alternatives. -/
lemma Contradictory.unsatisfiable (h : Contradictory cs) (hcs : HasOrdinaryComparators cs) :
    Unsatisfiable cs := by
  obtain ⟨as, has, hnone⟩ := h
  exact ⟨as, has, fun v hv a ha hsatisfies =>
    hnone v hv a ha (hsatisfies.restricting (hcs.comparable has a ha))⟩

/-- Without idle comparators, a text that no version satisfies is contradictory. -/
lemma Unsatisfiable.contradictory (h : Unsatisfiable cs) (hidle : ¬ HasIdleComparator cs) :
    Contradictory cs := by
  obtain ⟨as, has, hnone⟩ := h
  refine ⟨as, has, fun v hv a ha => ?_⟩
  have htext : ∀ c ∈ a, c.text ≠ Expression.fromZeroText :=
    fun c hc heq => hidle ⟨as, has, a, ha, c, hc, heq⟩
  rw [Alternative.restricting_eq_self htext]
  exact hnone v hv a ha

/-- Nothing satisfies what restricts an unsatisfiable text, but for prereleases of the lowest release. -/
lemma Unsatisfiable.belowReleases (h : Unsatisfiable cs) (hcs : HasOrdinaryComparators cs)
    (has : Expression.IsReadAs .strict cs as) {v : Semver} (hv : v.Ordinary)
    (hsatisfies : ∃ a ∈ as, a.restricting.Satisfies v) : v.BelowReleases := by
  obtain ⟨bs, hbs, hnone⟩ := h
  obtain rfl := has.unique hbs
  obtain ⟨a, ha, hav⟩ := hsatisfies
  by_contra hbelow
  exact hnone v hv a ha ((Alternative.satisfies_restricting (hcs.comparable has a ha) hbelow).mp hav)

/-- A contradictory text is a range. -/
lemma not_contradictory_of_ofText_none (h : ofText .strict cs = .ok none) : ¬ Contradictory cs := by
  rintro ⟨as, has, -⟩
  exact not_isReadAs_of_ofText_none h has

/-- A text that no version satisfies is a range. -/
lemma not_unsatisfiable_of_ofText_none (h : ofText .strict cs = .ok none) :
    ¬ Unsatisfiable cs := by
  rintro ⟨as, has, -⟩
  exact not_isReadAs_of_ofText_none h has

/-- A range expression has no intervals if and only if it is contradictory. -/
lemma ofText_eq_nil_iff (h : ofText .strict cs = .ok (some is)) (hcs : HasOrdinaryComparators cs) :
    is.Regular ∧ (is = [] ↔ Contradictory cs) := by
  obtain ⟨as, has, hspec⟩ := exists_isReadAs_of_ofText h
  obtain ⟨his, hcontains⟩ := hspec (hcs as has)
  refine ⟨his, Iff.trans ?_ (contradictory_iff has).symm⟩
  constructor
  · rintro rfl v hv a ha hav
    -- A prerelease could be lost to an alternative without restrictions, but no release is.
    have hlost (w : Semver) (hw : w.Ordinary) (hsome : ∃ b ∈ as, b.restricting.Satisfies w) :
        ¬ (w.isPrerelease = true → ∀ b ∈ as, b.restricting ≠ []) := by
      obtain ⟨ok, hok, hiff⟩ := hcontains w hw.regular.toComparable
      cases hok
      exact fun hall => Bool.false_ne_true (hiff.mpr ⟨hsome, hall⟩)
    have hnil : ∃ b ∈ as, b.restricting = [] := by
      by_contra hne
      exact hlost v hv ⟨a, ha, hav⟩ fun _ b hb hb' => hne ⟨b, hb, hb'⟩
    obtain ⟨b, hb, hbnil⟩ := hnil
    have hzero : b.restricting.Satisfies (.ofRelease .zero) := by
      rw [hbnil]
      exact ⟨nofun, nofun⟩
    exact hlost (.ofRelease .zero) (Semver.ordinary_ofRelease (by decide)) ⟨b, hb, hzero⟩ nofun
  · intro hnone
    by_contra hne
    obtain ⟨v, hv, htrue⟩ := (normal_of_ofText h).exists_contains his hne
    obtain ⟨⟨a, ha, hav⟩, -⟩ := ((hcontains v hv.regular.toComparable).of_eq_ok htrue).mp rfl
    exact hnone v hv a ha hav

/-- The range of an unsatisfiable text has prereleases of the lowest release only. -/
lemma Unsatisfiable.belowReleases_of_contains (h : Unsatisfiable cs)
    (hcs : HasOrdinaryComparators cs) (hread : ofText .strict cs = .ok (some is)) {v : Semver}
    (hv : v.Ordinary) (hcontains : contains v is = .ok true) : v.BelowReleases := by
  obtain ⟨as, has, hspec⟩ := exists_isReadAs_of_ofText hread
  have hiff := ((hspec (hcs as has)).2 v hv.regular.toComparable).of_eq_ok hcontains
  exact h.belowReleases hcs has hv (hiff.mp rfl).1

end Contradictions

end Range

/-! ### Constraints that are not empty -/

namespace Constraint

variable {c : Constraint}

/-- Some ordinary version satisfies a normal constraint that is not the empty one. -/
lemma Normal.exists_contains (h : c.Normal) (hc : c.Regular) (hne : c ≠ .empty) :
    ∃ v : Version, v.Ordinary ∧ c.contains v = .ok true := by
  cases c with
  | universal => exact ⟨.revision "", Version.ordinary_of_semver?_eq_none rfl, rfl⟩
  | empty => exact absurd rfl hne
  | range is t =>
    obtain ⟨v, hv, hcontains⟩ := h.2.exists_contains hc h.1
    refine ⟨.named (.semver v), ?_, hcontains⟩
    rintro _ ⟨⟩
    exact hv
  | revision id =>
    exact ⟨.revision id, Version.ordinary_of_semver?_eq_none rfl,
      by simp [contains, Version.revision?]⟩
  | branch name =>
    exact ⟨.named (.branch name), Version.ordinary_of_semver?_eq_none rfl,
      by simp [contains, Version.branch?, Version.named?]⟩
  | literal text =>
    exact ⟨.named (.plain text), Version.ordinary_of_semver?_eq_none rfl,
      by simp [contains, Version.literal?, Version.named?]⟩

/-- A reachable constraint is the empty one if and only if no version satisfies it, and if no ordinary
one does. -/
lemma Reachable.isEmpty_iff (h : Reachable c) :
    (c.isEmpty = true ↔ ∀ v : Version, c.contains v = .ok false) ∧
      (c.isEmpty = true ↔ ¬ ∃ v : Version, v.Ordinary ∧ c.contains v = .ok true) := by
  obtain ⟨hregular, hnormal⟩ := h.regular_and_normal
  have hexists (hne : c.isEmpty ≠ true) := hnormal.exists_contains hregular
    (mt isEmpty_eq_true.mpr hne)
  have hcontains (hempty : c.isEmpty = true) (v : Version) : c.contains v = .ok false := by
    rw [isEmpty_eq_true.mp hempty, contains]
  constructor
  · refine ⟨hcontains, fun hnone => ?_⟩
    by_contra hne
    obtain ⟨v, -, hv⟩ := hexists hne
    rw [hnone v] at hv
    cases hv
  · refine ⟨?_, fun hnone => ?_⟩
    · rintro hempty ⟨v, -, hv⟩
      rw [hcontains hempty v] at hv
      cases hv
    · by_contra hne
      exact hnone (hexists hne)

end Constraint

/-! ### Warnings of declarations -/

namespace Requirement

variable {s : String}

lemma not_warned_of_literal :
    ¬ ∃ w ∈ Reporter.caller.received [.literalFallback s], w.code = "W102" := by
  rintro ⟨w, hw, hcode⟩
  obtain rfl := List.mem_singleton.mp hw
  exact absurd hcode (by simp [Warning.code, Warning.literalFallbackCode])

lemma warned_iff {empty : Bool} :
    (∃ w ∈ Reporter.caller.received (if empty then [.unsatisfiable s] else []), w.code = "W102") ↔
      empty = true := by
  cases empty with
  | true => exact iff_of_true ⟨_, List.mem_singleton_self _, rfl⟩ rfl
  | false =>
    refine iff_of_false ?_ Bool.false_ne_true
    rintro ⟨w, hw, -⟩
    cases hw

end Requirement

namespace Constraint

section Declarations

variable {cs : Text} {is js : Range} {s t : String}

/-- The constraint of a range is empty exactly if its text is contradictory. -/
lemma isEmpty_ofRange_iff (h : Range.ofText .strict cs = .ok (some is))
    (hcs : Range.HasOrdinaryComparators cs) :
    (ofRange is s).isEmpty = true ↔ Range.Contradictory cs := by
  rw [isEmpty_eq_true, ofRange_eq_empty_iff, (Range.ofText_eq_nil_iff h hcs).2]

lemma contains_of_contains_ofRange {v : Semver}
    (h : (ofRange is s).contains (.named (.semver v)) = .ok true) :
    Range.contains v is = .ok true := by
  cases is with
  | nil => cases h
  | cons i is => exact h

/-- A range that was declared has a version that satisfies it. -/
lemma exists_contains_ofRange (h : Range.ofText .strict cs = .ok (some is))
    (hcs : Range.HasOrdinaryComparators cs) (hrange : ofRange is s = .range js t) :
    ∃ v : Semver, v.Ordinary ∧ (ofRange is s).contains (.named (.semver v)) = .ok true := by
  cases is with
  | nil => cases hrange
  | cons i is =>
    exact (Range.normal_of_ofText h).exists_contains (Range.ofText_eq_nil_iff h hcs).1
      (List.cons_ne_nil i is)

end Declarations

/-- A reachable constraint is the empty one if and only if no version satisfies it. A declared
version text comes to the empty constraint, and the caller is warned of that, if and only if nothing
satisfies the comparators that restrict an alternative of it. Then no version satisfies the text. A
text that no version satisfies comes to the empty constraint, unless one of its comparators has the
lowest release as an inclusive lower bound: then it may come to a range, of prereleases of that
release. If a text comes to a range, some version satisfies the range. -/
theorem isEmpty_exact (c : Constraint) (s : String) :
    (Reachable c →
      (c.isEmpty = true ↔ ∀ v : Version, c.contains v = .ok false) ∧
      (c.isEmpty = true ↔ ¬ ∃ v : Version, v.Ordinary ∧ c.contains v = .ok true)) ∧
    ∀ q : Requirement, Requirement.ofDeclaration "version" s .strict = .ok q →
      Range.HasOrdinaryComparators s.toList →
        (q.constraint.isEmpty = true ↔ Range.Contradictory s.toList) ∧
        ((∃ w ∈ Reporter.caller.received q.warnings, w.code = "W102") ↔
          Range.Contradictory s.toList) ∧
        (q.constraint.isEmpty = true → Range.Unsatisfiable s.toList) ∧
        (Range.Unsatisfiable s.toList → q.constraint.isEmpty = true ∨
          Range.HasIdleComparator s.toList ∧ ∀ v : Semver, v.Ordinary →
            q.constraint.contains (.named (.semver v)) = .ok true → v.BelowReleases) ∧
        ∀ is t, q.constraint = .range is t → ∃ v : Semver, v.Ordinary ∧
          q.constraint.contains (.named (.semver v)) = .ok true := by
  refine ⟨fun hc => hc.isEmpty_iff, fun q h hordinary => ?_⟩
  obtain ⟨hnone, rfl⟩ | ⟨is, his, rfl⟩ := Requirement.ofVersionText_cases (Error.of_ofFault h)
  · have hcontradictory := Range.not_contradictory_of_ofText_none hnone
    refine ⟨iff_of_false Bool.false_ne_true hcontradictory,
      iff_of_false Requirement.not_warned_of_literal hcontradictory, nofun,
      fun hunsatisfiable => ?_, nofun⟩
    exact absurd hunsatisfiable (Range.not_unsatisfiable_of_ofText_none hnone)
  · have hempty := isEmpty_ofRange_iff (s := Requirement.displayText s) his hordinary
    refine ⟨hempty, Requirement.warned_iff.trans hempty, fun h => ?_, fun h => ?_, ?_⟩
    · exact (hempty.mp h).unsatisfiable hordinary
    · refine or_iff_not_imp_left.mpr fun hne => ⟨?_, fun v hv hcontains => ?_⟩
      · by_contra hidle
        exact hne (hempty.mpr (h.contradictory hidle))
      · exact h.belowReleases_of_contains hordinary his hv (contains_of_contains_ofRange hcontains)
    · intro js t hrange
      exact exists_contains_ofRange his hordinary hrange

/-- A text with a version and the version directly above it as exclusive ends. -/
def gapText : String := ">1.0.0-a <1.0.0-a.0"

def gap : Alternative :=
  [.bounded .above ⟨⟨1, 0, 0⟩, [.word ['a']], [], .strict⟩,
    .bounded .below ⟨⟨1, 0, 0⟩, [.word ['a'], .number 0], [], .strict⟩]

lemma ordinary_of_mem_gap : ∀ c ∈ gap, c.Ordinary := by
  have ordinary_of_text {v : Semver} (hread : Semver.ofText .strict v.text = .ok v)
      (hwords : ∀ t, .word t ∈ v.prerelease → Numeral.isDigits t = false) (o : Operator) :
      (Comparator.bounded o v).Ordinary := ⟨v, hread, ⟨_, hread⟩, hwords⟩
  refine List.forall_mem_cons.mpr ⟨ordinary_of_text (by decide) ?_ _,
    List.forall_mem_singleton.mpr (ordinary_of_text (by decide) ?_ _)⟩
  · simp [Numeral.isDigits]
  · simp [Numeral.isDigits]

lemma isReadAs_gapText : Expression.IsReadAs .strict gapText.toList [gap] :=
  ⟨gapText.toList, by decide +kernel, by decide +kernel⟩

theorem isEmpty_exact_gap :
    (∃ v : Version, v.Ordinary ∧ sample.contains v = .ok true) ∧
      Range.Unsatisfiable gapText.toList := by
  constructor
  · exact not_not.mp (mt ((isEmpty_exact sample gapText).1 reachable_sample).2.mpr nofun)
  · have hdeclared : Requirement.ofDeclaration "version" gapText .strict =
        .ok ⟨.empty, [.unsatisfiable gapText]⟩ := by decide +kernel
    have hordinary : Range.HasOrdinaryComparators gapText.toList := by
      intro as has
      rw [has.unique isReadAs_gapText]
      exact List.forall_mem_singleton.mpr ordinary_of_mem_gap
    obtain ⟨-, -, hunsatisfiable, -⟩ := (isEmpty_exact sample gapText).2 _ hdeclared hordinary
    exact hunsatisfiable rfl

/-- A text with the lowest release as its lower bound and a prerelease of it as its upper bound. -/
def belowZeroText : String := ">=v0.0.0 <0.0.0-beta"

def belowZero : Semver := ⟨.zero, [.word ['b', 'e', 't', 'a']], [], .strict⟩

lemma ordinary_belowZero : belowZero.Ordinary := by
  refine ⟨⟨belowZero.text, by decide⟩, fun t ht => ?_⟩
  obtain rfl : t = ['b', 'e', 't', 'a'] := Identifier.word.inj (List.mem_singleton.mp ht)
  simp [Numeral.isDigits]

lemma not_satisfies_belowZero {v : Semver} (hv : v.Ordinary) :
    ¬ Alternative.Satisfies v
      [.bounded .atLeast (.ofRelease .zero), .bounded .below belowZero] := by
  have hzero : (Semver.ofRelease .zero).Regular := (Semver.ordinary_ofRelease (by decide)).regular
  have hbelow : belowZero.Regular := ordinary_belowZero.regular
  have hwell {w : Semver} (hw : w.Regular) : w.WellFormed := hw.toComparable.wellFormed
  rintro ⟨hall, -⟩
  have hlower : v.order (.ofRelease .zero) ≠ .lt := hall _ List.mem_cons_self
  have hupper : v.order belowZero = .lt := hall _ (List.mem_cons_of_mem _ List.mem_cons_self)
  have hle := ((hwell hv.regular).order_compares hzero).ne_lt.mp hlower
  have hlt := ((hwell hv.regular).order_compares hbelow).eq_lt.mp hupper
  have hend := ((hwell hbelow).order_compares hzero).eq_lt.mp (by decide)
  exact (hlt.trans hend).not_ge hle

/-- No version satisfies a text, and it does not come to the empty constraint, nor is there a
warning: when the text is read again, its lower bound is dropped. -/
theorem isEmpty_of_unsatisfiable_fails :
    Range.Unsatisfiable belowZeroText.toList ∧ Range.HasOrdinaryComparators belowZeroText.toList ∧
      Requirement.ofDeclaration "version" belowZeroText .strict =
        .ok ⟨.range [⟨none, some ⟨belowZero, false⟩⟩] belowZeroText, []⟩ := by
  have hread : Expression.IsReadAs .strict belowZeroText.toList
      [[.bounded .atLeast (.ofRelease .zero), .bounded .below belowZero]] :=
    ⟨belowZeroText.toList, by decide +kernel, by decide +kernel⟩
  refine ⟨⟨_, hread, fun v hv => ?_⟩, fun as has => ?_, by decide +kernel⟩
  · exact List.forall_mem_singleton.mpr (not_satisfies_belowZero hv)
  · have hlower : (Comparator.bounded .atLeast (.ofRelease .zero)).Ordinary :=
      ⟨.ofRelease .zero, by decide, Semver.ordinary_ofRelease (by decide)⟩
    have hupper : (Comparator.bounded .below belowZero).Ordinary :=
      ⟨belowZero, by decide, ordinary_belowZero⟩
    rw [has.unique hread]
    exact List.forall_mem_singleton.mpr
      (List.forall_mem_cons.mpr ⟨hlower, List.forall_mem_singleton.mpr hupper⟩)

end Constraint

end VersionConstraints
