import VersionConstraints.Constraint.Requirement
import VersionConstraints.Proofs.Constraint.Conjunction
import VersionConstraints.Proofs.Range.Normal

/-!
# Reachable constraints

Constraints come from declarations, from versions that were found and from intersections. Where all
versions are ordinary, the range of a constraint that comes about in this way has intervals, and
these have regular bounds and are normal.
-/

namespace VersionConstraints

/-- Whether the semantic version of a version is ordinary, if it has one. -/
def Version.Ordinary (v : Version) : Prop :=
  ∀ s ∈ v.semver?, s.Ordinary

lemma Version.ordinary_of_semver?_eq_none {v : Version} (h : v.semver? = none) : v.Ordinary := by
  intro s hs
  rw [h] at hs
  cases hs

lemma Version.Ordinary.comparable {v : Version} (h : v.Ordinary) : v.Comparable :=
  fun s hs => (h s hs).regular.toComparable

/-! ### Requirements of the version kind -/

lemma Error.of_ofFault {α : Type} {x : Except Fault α} {a : α} (h : Error.ofFault x = .ok a) :
    x = .ok a := by
  cases x with
  | error f => cases h
  | ok b => exact congrArg Except.ok (Except.ok.inj h)

namespace Requirement

variable {g : Grammar} {s : String} {q : Requirement}

lemma ofDeclaration_version (s : String) (g : Grammar) :
    ofDeclaration "version" s g = Error.ofFault (ofVersionText g s) := rfl

/-- A requirement of the version kind is a range expression or a literal. -/
lemma ofVersionText_cases (h : ofVersionText g s = .ok q) :
    (Range.ofText g s.toList = .ok none ∧ q = ⟨.literal s, [.literalFallback s]⟩) ∨
      ∃ is, Range.ofText g s.toList = .ok (some is) ∧
        q = ⟨.ofRange is (displayText s),
          if (Constraint.ofRange is (displayText s)).isEmpty then [.unsatisfiable s] else []⟩ := by
  obtain ⟨o, ho, h⟩ := bind_eq_ok.mp h
  cases o with
  | none => exact .inl ⟨ho, (Except.ok.inj h).symm⟩
  | some is => exact .inr ⟨is, ho, (Except.ok.inj h).symm⟩

end Requirement

namespace Constraint

variable {c d e : Constraint} {is js ks : Range} {t : String}

/-! ### Normal constraints -/

/-- Whether the range of a constraint has intervals, and normal ones. -/
def Normal : Constraint → Prop
  | .range is _ => is ≠ [] ∧ is.Normal
  | _           => True

lemma normal_ofRange (h : is.Normal) : (ofRange is t).Normal := by
  cases is with
  | nil => trivial
  | cons i is => exact ⟨List.cons_ne_nil i is, h⟩

lemma Normal.comparable (h : (range is t).Normal) : ∀ i ∈ is, i.Comparable :=
  fun i hi => (h.2 i hi).1

/-- Intersections are normal. -/
lemma normal_of_intersect (hc : c.Regular) (hd : d.Regular) (hcn : c.Normal) (hdn : d.Normal)
    (h : c.intersect d = .ok e) : e.Normal := by
  by_cases hcu : c = .universal
  · subst hcu
    cases h
    exact hdn
  by_cases hdu : d = .universal
  · subst hdu
    rw [intersect_universal_right] at h
    cases h
    exact hcn
  rcases (makes_of_intersect hc hd h).form_eq hcu hdu with rfl | ⟨hec, hcd⟩
  · trivial
  · cases c with
    | range is s =>
      cases d <;> cases hcd
      obtain ⟨ks, hks, h⟩ := bind_eq_ok.mp h
      obtain ⟨u, -, h⟩ := bind_eq_ok.mp h
      cases h
      exact normal_ofRange (Range.normal_of_intersect hcn.comparable hdn.comparable hks)
    | universal | empty | revision a | branch a | literal a =>
      cases e <;> trivial

/-! ### Declarations and pins -/

variable {kind s : String} {q : Requirement} {v : Version}

/-- A strict declaration makes a normal constraint. -/
lemma normal_of_ofDeclaration (h : Requirement.ofDeclaration kind s .strict = .ok q) :
    q.constraint.Normal := by
  simp only [Requirement.ofDeclaration] at h
  split at h
  · cases h
  · cases h
    trivial
  · cases h
    trivial
  · obtain ⟨-, rfl⟩ | ⟨is, his, rfl⟩ := Requirement.ofVersionText_cases (Error.of_ofFault h)
    · trivial
    · exact normal_ofRange (Range.normal_of_ofText his)

lemma normal_pin (hv : v.Ordinary) : (pin v).Normal ∧ (pin v).Regular := by
  cases v with
  | revision id => exact ⟨trivial, trivial⟩
  | paired n id => exact ⟨trivial, trivial⟩
  | named n =>
    cases n with
    | branch name => exact ⟨trivial, trivial⟩
    | plain text => exact ⟨trivial, trivial⟩
    | semver w =>
      have hw : w.Ordinary := hv w rfl
      refine ⟨⟨List.cons_ne_nil _ _, List.forall_mem_singleton.mpr ?_⟩,
        List.forall_mem_singleton.mpr (Interval.regular_exact hw.regular)⟩
      exact ⟨Interval.comparable_exact hw.regular.toComparable,
        Interval.normal_exact hw.regular.toComparable⟩

/-! ### Reachable constraints -/

/-- The constraints that come about from declarations, found versions and intersections, where all
versions are ordinary. -/
inductive Reachable : Constraint → Prop
  | universal : Reachable .universal
  | empty : Reachable .empty
  | revision (id : String) : Reachable (.revision id)
  | branch (name : String) : Reachable (.branch name)
  | literal (text : String) : Reachable (.literal text)
  | declared {kind s : String} {q : Requirement}
      (h : Requirement.ofDeclaration kind s .strict = .ok q) (hq : q.constraint.Regular) :
      Reachable q.constraint
  | pinned {v : Version} (hv : v.Ordinary) : Reachable (pin v)
  | intersect {c d e : Constraint} (hc : Reachable c) (hd : Reachable d)
      (h : c.intersect d = .ok e) : Reachable e

/-- A reachable constraint has regular bounds and is normal. -/
theorem Reachable.regular_and_normal (h : Reachable c) : c.Regular ∧ c.Normal := by
  induction h with
  | universal | empty | revision id | branch name | literal text => exact ⟨trivial, trivial⟩
  | declared h hq => exact ⟨hq, normal_of_ofDeclaration h⟩
  | pinned hv => exact (normal_pin hv).symm
  | intersect hc hd h ihc ihd =>
    exact ⟨(makes_of_intersect ihc.1 ihd.1 h).regular ihc.1 ihd.1,
      normal_of_intersect ihc.1 ihd.1 ihc.2 ihd.2 h⟩

/-! ### Two reachable ranges -/

lemma reachable_sample : sample.Reachable := by
  have hdeclared : Requirement.ofDeclaration "version" ">=1.2.0-beta.3 <2.0.0" .strict =
      .ok ⟨sample, []⟩ := by decide +kernel
  exact .declared hdeclared Range.regular_sample

/-- The range `<1.0.0 || >=1.2.0-beta.3 <2.0.0`, with a gap between its intervals. -/
def sampleGapped : Constraint :=
  .range (⟨none, some ⟨.ofRelease ⟨1, 0, 0⟩, false⟩⟩ :: Range.sample) "^1.2.0-beta.3 || <1.0.0"

lemma reachable_sampleGapped : sampleGapped.Reachable := by
  have hdeclared : Requirement.ofDeclaration "version" "^1.2.0-beta.3 || <1.0.0" .strict =
      .ok ⟨sampleGapped, []⟩ := by decide +kernel
  have hrelease : (Semver.ofRelease ⟨1, 0, 0⟩).Ordinary := Semver.ordinary_ofRelease (by decide)
  exact .declared hdeclared (List.forall_mem_cons.mpr
    ⟨⟨Bound.regular_none, Bound.regular_some.mpr hrelease.regular⟩, Range.regular_sample⟩)

end Constraint

end VersionConstraints
