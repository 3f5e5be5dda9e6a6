import VersionConstraints.Proofs.Constraint.Reachable
import VersionConstraints.Proofs.Range.Display

/-!
# The text of a constraint means the constraint

A declared range keeps its own text, and an intersection of ranges gets the canonical text of its
intervals. That text does not always come to the same intervals when it is read back: a lower bound
at the lowest release of all is dropped, and one alternative without any bound swallows the others.
Still it contains the same versions. A range that was read strictly or pinned never joins an
interval without effective bounds with one that has a prerelease as a bound, and intersections keep
to that.
-/

namespace VersionConstraints

/-! ### Texts of ranges -/

namespace Range

variable {is js ks : Range} {t : Text} {v : Semver}

/-- Whether a range is what a text is read as, or the text is its canonical one. -/
def Shows (t : Text) (is : Range) : Prop :=
  ofText .strict t = .ok (some is) ∨ text is = .ok t

/-- A text that shows a range is read as a range that contains the same versions. -/
theorem Shows.exists_ofText (h : Shows t is) (his : is.Regular) (hn : is.Normal) (hne : is ≠ [])
    (hcollapsible : Span.Collapsible is.spans) : ∃ js, ofText .strict t = .ok (some js) ∧
      ∀ v : Semver, v.Comparable → contains v js = contains v is := by
  rcases h with hread | htext
  · exact ⟨is, hread, fun _ _ => rfl⟩
  · obtain ⟨u, js, hu, hread, hjs, -, hspans⟩ := exists_ofText_text his hn hne
    obtain rfl := Except.ok.inj (htext.symm.trans hu)
    refine ⟨js, hread, fun v hv => contains_congr hjs his hv ?_⟩
    rw [hspans]
    exact Span.exists_mem_reread_holds hcollapsible (hn.inhabited his)

lemma ofText_trim (g : Grammar) (t : Text) : ofText g t.trim = ofText g t := by
  rw [ofText, ofText, Text.trim_trim]

/-- The text of a version shows the range of that version. -/
lemma shows_exact (hv : v.Comparable) : Shows v.text [.exact v] := by
  refine .inr ?_
  have hexact : Interval.isExact ⟨v, true⟩ ⟨v, true⟩ = .ok true := by
    rw [Interval.isExact, hv.compare_eq hv, Semver.order_self]
    rfl
  have htext : (Interval.exact v).text = .ok v.text := by
    simp only [Interval.exact, Interval.text, hexact, ok_bind, if_true, pure_eq_ok]
  rw [text, List.mapM_cons, htext, List.mapM_nil]
  exact congrArg Except.ok List.intercalate_singleton

lemma collapsible_exact (v : Semver) : Span.Collapsible (spans [.exact v]) := by
  rw [spans_singleton]
  rintro ⟨_, rfl, heq⟩
  exact absurd (Span.relax_eq_unrestricted.mp heq).1 Cut.beside_lt_top.ne

end Range

/-! ### Legible constraints -/

namespace Requirement

variable {s : String}

/-- The text that a range is displayed with is read as the range. -/
lemma ofText_displayText (s : String) :
    Range.ofText .strict (displayText s).toList = Range.ofText .strict s.toList := by
  rw [displayText, ← Range.ofText_trim _ s.toList]
  split
  · next hblank =>
    rw [List.isEmpty_iff.mp hblank]
    decide +kernel
  · rw [String.toList_ofList]

lemma ofDeclaration_of_ofText_none (h : Range.ofText .strict s.toList = .ok none) :
    ofDeclaration "version" s .strict = .ok ⟨.literal s, [.literalFallback s]⟩ := by
  rw [ofDeclaration_version, ofVersionText, h]
  rfl

/-- A text that is read as a range is declared as that range. -/
lemma exists_ofDeclaration_of_ofText {is : Range}
    (h : Range.ofText .strict s.toList = .ok (some is)) : ∃ q,
      ofDeclaration "version" s .strict = .ok q ∧ q.constraint = .ofRange is (displayText s) := by
  rw [ofDeclaration_version, ofVersionText, h]
  exact ⟨_, rfl, rfl⟩

end Requirement

namespace Constraint

variable {c d e : Constraint} {is : Range} {s : String} {v : Semver} {q : Requirement}

/-- Whether the text of a constraint means it, if it is declared as a version text. -/
def Legible : Constraint → Prop
  | .empty                              => True
  | .range is t                         => Span.Collapsible is.spans ∧ Range.Shows t.toList is
  | .literal t                          => Range.ofText .strict t.toList = .ok none
  | .universal | .revision _ | .branch _ => False

lemma Legible.ne_universal (h : c.Legible) : c ≠ .universal := by
  rintro rfl
  exact h

/-- A range with a text that shows it is legible. -/
lemma legible_ofRange (hcollapsible : Span.Collapsible is.spans) (h : Range.Shows s.toList is) :
    (ofRange is s).Legible := by
  cases is with
  | nil => trivial
  | cons i is => exact ⟨hcollapsible, h⟩

/-- A strict declaration makes a legible constraint. -/
lemma legible_of_ofDeclaration (h : Requirement.ofDeclaration "version" s .strict = .ok q)
    (hq : q.constraint.Regular) : q.constraint.Legible := by
  obtain ⟨hnone, rfl⟩ | ⟨is, his, rfl⟩ := Requirement.ofVersionText_cases (Error.of_ofFault h)
  · exact hnone
  · cases is with
    | nil => trivial
    | cons i is =>
      refine ⟨(Range.rereadable_of_ofText his hq).collapsible, .inl ?_⟩
      rw [Requirement.ofText_displayText, his]

/-- The pin of a version is legible. -/
lemma legible_pin (hv : v.Ordinary) : (pin (.named (.semver v))).Legible := by
  refine legible_ofRange (Range.collapsible_exact v) ?_
  rw [String.toList_ofList]
  exact Range.shows_exact hv.regular.toComparable

/-- Intersections of legible constraints are legible. -/
lemma legible_of_intersect (hc : c.Regular) (hd : d.Regular) (hcl : c.Legible) (hdl : d.Legible)
    (h : c.intersect d = .ok e) : e.Legible := by
  rcases (makes_of_intersect hc hd h).form_eq hcl.ne_universal hdl.ne_universal with
    rfl | ⟨-, hform⟩
  · trivial
  · cases c with
    | empty =>
      rw [intersect_empty_left] at h
      cases h
      trivial
    | range is s =>
      cases d <;> cases hform
      obtain ⟨ks, t, hks, ht, rfl⟩ := intersectRanges_spec hc hd h
      refine legible_ofRange ?_ (.inr ?_)
      · rw [hks.spans_eq]
        exact hcl.1.meets hdl.1
      · rw [ht, String.toList_ofList]
    | literal a =>
      rw [intersect_of_keyed (c := literal a) trivial hform] at h
      cases h
      split
      · exact hcl
      · trivial
    | universal | revision a | branch a => exact hcl.elim

/-! ### Constraints of version texts and semantic versions -/

/-- The constraints that come about from declared version texts, semantic versions that were found
and intersections, where all versions are ordinary. -/
inductive OfVersions : Constraint → Prop
  | declared {s : String} {q : Requirement}
      (h : Requirement.ofDeclaration "version" s .strict = .ok q) (hq : q.constraint.Regular) :
      OfVersions q.constraint
  | pinned {v : Semver} (hv : v.Ordinary) : OfVersions (pin (.named (.semver v)))
  | intersect {c d e : Constraint} (hc : OfVersions c) (hd : OfVersions d)
      (h : c.intersect d = .ok e) : OfVersions e

namespace OfVersions

/-- What is made of versions and declarations is reachable. -/
lemma reachable (h : OfVersions c) : Reachable c := by
  induction h with
  | declared h hq => exact .declared h hq
  | pinned hv =>
    refine .pinned ?_
    rintro _ ⟨⟩
    exact hv
  | intersect _ _ h ihc ihd => exact .intersect ihc ihd h

/-- What is made of versions and declarations is legible. -/
theorem legible (h : OfVersions c) : c.Legible := by
  induction h with
  | declared h hq => exact legible_of_ofDeclaration h hq
  | pinned hv => exact legible_pin hv
  | intersect hc hd h ihc ihd =>
    exact legible_of_intersect hc.reachable.regular_and_normal.1 hd.reachable.regular_and_normal.1
      ihc ihd h

end OfVersions

/-- The text of a constraint means the constraint. If a constraint comes from declared version
texts, semantic versions that were found and intersections, and is not the empty one, its text can
be declared as a version text and comes to a constraint that contains the same versions. -/
theorem contains_ofDeclaration_text (h : OfVersions c) (hne : c ≠ .empty) : ∃ q,
    Requirement.ofDeclaration "version" c.text .strict = .ok q ∧
      ∀ v : Version, v.Comparable →
        ∃ ok, q.constraint.contains v = .ok ok ∧ c.contains v = .ok ok := by
  obtain ⟨hregular, hnormal⟩ := h.reachable.regular_and_normal
  have hlegible := h.legible
  have hcontains (v : Version) (hv : v.Comparable) : ∃ ok, c.contains v = .ok ok :=
    contains_total hregular hv
  cases c with
  | empty => exact absurd rfl hne
  | range is t =>
    obtain ⟨js, hread, hsame⟩ := hlegible.2.exists_ofText hregular hnormal.2 hnormal.1 hlegible.1
    obtain ⟨q, hq, hconstraint⟩ := Requirement.exists_ofDeclaration_of_ofText hread
    refine ⟨q, hq, fun v hv => ?_⟩
    obtain ⟨ok, hok⟩ := hcontains v hv
    refine ⟨ok, ?_, hok⟩
    rw [← hok, hconstraint, contains_ofRange, contains]
    cases hs : v.semver? with
    | none => rfl
    | some s => exact hsame s (hv s hs)
  | literal t =>
    refine ⟨_, Requirement.ofDeclaration_of_ofText_none hlegible, fun v hv => ?_⟩
    obtain ⟨ok, hok⟩ := hcontains v hv
    exact ⟨ok, hok, hok⟩
  | universal | revision a | branch a => exact hlegible.elim

/-- The constraint that `>=0.0.0-0` and `*` make together. Its text is read as `*`. -/
def fromZero : Constraint := .range [⟨some ⟨.ofRelease .zero, true⟩, none⟩] ">=0.0.0"

theorem contains_ofDeclaration_text_fromZero : ∃ q,
    Requirement.ofDeclaration "version" fromZero.text .strict = .ok q ∧
      ∀ v : Version, v.Comparable →
        ∃ ok, q.constraint.contains v = .ok ok ∧ fromZero.contains v = .ok ok := by
  have hlowest : Requirement.ofDeclaration "version" ">=0.0.0-0" .strict =
      .ok ⟨.range [⟨some ⟨.lowestPrerelease .zero, true⟩, none⟩] ">=0.0.0-0", []⟩ := by
    decide +kernel
  have hany : Requirement.ofDeclaration "version" "*" .strict =
      .ok ⟨.range [⟨none, none⟩] "*", []⟩ := by decide +kernel
  have hmeet : intersect (.range [⟨some ⟨.lowestPrerelease .zero, true⟩, none⟩] ">=0.0.0-0")
      (.range [⟨none, none⟩] "*") = .ok fromZero := by decide +kernel
  have hzero : (Semver.lowestPrerelease .zero).Ordinary :=
    Semver.ordinary_lowestPrerelease (by decide)
  have hregular :
      (Constraint.range [⟨some ⟨.lowestPrerelease .zero, true⟩, none⟩] ">=0.0.0-0").Regular :=
    List.forall_mem_singleton.mpr ⟨Bound.regular_some.mpr hzero.regular, Bound.regular_none⟩
  have hregular' : (Constraint.range [⟨none, none⟩] "*").Regular :=
    List.forall_mem_singleton.mpr ⟨Bound.regular_none, Bound.regular_none⟩
  have hreachable : OfVersions fromZero :=
    .intersect (.declared hlowest hregular) (.declared hany hregular') hmeet
  exact contains_ofDeclaration_text hreachable nofun

end Constraint

end VersionConstraints
