import VersionConstraints.Proofs.Expression.Alternatives
import VersionConstraints.Proofs.Interval.Folding
import VersionConstraints.Proofs.Range.Canonical
import VersionConstraints.Range.Parser

/-!
# Ranges of expressions

The range of an expression contains the versions that satisfy one of its alternatives: nothing is
lost where an alternative is folded into two bounds, where alternatives that nothing satisfies are
left out, and where the intervals are sorted and repetitions dropped.
-/

namespace VersionConstraints

/-- Whether the canonical text of a comparator's version is read as an ordinary version. -/
def Comparator.Ordinary : Comparator → Prop
  | .any         => True
  | .bounded _ v => ∃ w, Semver.ofText .strict v.text = .ok w ∧ w.Ordinary

lemma Comparator.Ordinary.regular {c : Comparator} {g : Grammar} (h : c.Ordinary)
    (hread : c.ReadWith g) : c.Regular := by
  cases c with
  | any => trivial
  | bounded o v =>
    obtain ⟨w, hw, hordinary⟩ := h
    obtain ⟨t, ht⟩ := hread o v rfl
    exact Semver.regular_of_text ht hw hordinary

namespace Range

variable {is : Range} {as : List Alternative} {g : Grammar} {v : Semver}

lemma intervals_spec (h : intervals as = .ok is) : Collects Interval.ofAlternative as is := by
  induction as generalizing is with
  | nil =>
    cases h
    exact .nil
  | cons a as ih =>
    obtain ⟨o, ho, h⟩ := bind_eq_ok.mp h
    obtain ⟨rest, hrest, h⟩ := bind_eq_ok.mp h
    cases h
    exact .cons ho (ih hrest)

/-- The range of some alternatives contains the versions that satisfy one of them. -/
theorem ofAlternatives_spec (has : ∀ a ∈ as, ∀ c ∈ a, c.Regular) (h : ofAlternatives as = .ok is) :
    is.Regular ∧ is.Ascending ∧ ∀ v : Semver, v.Comparable →
      contains v is = .ok (decide (∃ a ∈ as, a.Satisfies v)) := by
  obtain ⟨all, hall, h⟩ := bind_eq_ok.mp h
  obtain ⟨hok, hmem⟩ := intervals_spec hall
  have hregular : Regular all := by
    intro i hi
    obtain ⟨a, ha, hai⟩ := (hmem i).mp hi
    obtain ⟨s, hs, -⟩ := Interval.ofAlternative_spec (has a ha) hai
    exact hs.1
  obtain ⟨hsub, hasc, hspans⟩ := (canonical_spec hregular).of_eq_ok h
  have his : is.Regular := fun i hi => hregular i (hsub i hi)
  refine ⟨his, hasc, ?_⟩
  intro v hv
  obtain ⟨found, hfound, hiff⟩ := contains_spec his hv
  rw [hfound]
  congr 1
  rw [Bool.eq_iff_iff, hiff, decide_eq_true_iff, hspans]
  constructor
  · rintro ⟨_, ⟨i, hi, rfl⟩, hholds⟩
    obtain ⟨a, ha, hai⟩ := (hmem i).mp hi
    obtain ⟨s, hs, hsatisfies⟩ := Interval.ofAlternative_spec (has a ha) hai
    rw [hs.2.1] at hholds
    exact ⟨a, ha, (hsatisfies v hv).mp hholds⟩
  · rintro ⟨a, ha, hav⟩
    obtain ⟨o, ho⟩ := hok a ha
    obtain ⟨s, hs, hsatisfies⟩ := Interval.ofAlternative_spec (has a ha) ho
    have hholds := (hsatisfies v hv).mpr hav
    cases o with
    | none => exact absurd hholds (hs _)
    | some i => exact ⟨s, ⟨i, (hmem i).mpr ⟨a, ha, ho⟩, hs.2.1⟩, hholds⟩

/-- The range of an expression contains the versions that satisfy one of the alternatives of its
canonical text. -/
theorem contains_ofText {cs : Text} (h : ofText g cs = .ok (some is)) :
    ∃ t as, (Expression.withoutCommas? cs.trim).bind (Expression.canonicalText? g) = some t ∧
      Expression.alternatives g t = .ok as ∧
      ((∀ a ∈ as, ∀ c ∈ a, c.Ordinary) → ∀ v : Semver, v.Comparable →
        (∀ a ∈ as, ∀ o w, .bounded o w ∈ a → v.compare w = .ok (v.order w)) ∧
        contains v is = .ok (decide (∃ a ∈ as, a.Satisfies v))) := by
  simp only [ofText] at h
  split at h
  · cases h
  · next t ht =>
    obtain ⟨as, has, h⟩ := bind_eq_ok.mp h
    obtain ⟨js, hjs, h⟩ := bind_eq_ok.mp h
    cases h
    refine ⟨t, as, ht, has, ?_⟩
    intro hordinary v hv
    have hregular : ∀ a ∈ as, ∀ c ∈ a, c.Regular := fun a ha c hc =>
      (hordinary a ha c hc).regular (Expression.readWith_of_alternatives has a ha c hc)
    obtain ⟨-, -, hcontains⟩ := ofAlternatives_spec hregular hjs
    refine ⟨fun a ha o w hw => ?_, hcontains v hv⟩
    have hwr : w.Regular := hregular a ha _ hw
    exact hv.compare_eq hwr.toComparable

def sampleText : Text := ">=1.2.0-beta.3 <2.0.0".toList

def sampleAlternatives : List Alternative :=
  [[.bounded .atLeast .sample, .bounded .below (.ofRelease ⟨2, 0, 0⟩)]]

theorem contains_ofText_sample :
    contains .sample sample = .ok (decide (∃ a ∈ sampleAlternatives, a.Satisfies .sample)) := by
  have hread : ofText .strict sampleText = .ok (some sample) := by decide +kernel
  have htext : (Expression.withoutCommas? sampleText.trim).bind
      (Expression.canonicalText? .strict) = some sampleText := by decide +kernel
  have halternatives : Expression.alternatives .strict sampleText = .ok sampleAlternatives := by
    decide +kernel
  obtain ⟨t, as, ht, has, hspec⟩ := contains_ofText hread
  obtain rfl : sampleText = t := Option.some.inj (htext.symm.trans ht)
  obtain rfl : sampleAlternatives = as := Except.ok.inj (halternatives.symm.trans has)
  have hordinary : ∀ a ∈ sampleAlternatives, ∀ c ∈ a, c.Ordinary := by
    have hlower : (Comparator.bounded .atLeast .sample).Ordinary :=
      ⟨.sample, by decide, Semver.ordinary_sample⟩
    have hupper : (Comparator.bounded .below (.ofRelease ⟨2, 0, 0⟩)).Ordinary :=
      ⟨.ofRelease ⟨2, 0, 0⟩, by decide, Semver.ordinary_ofRelease (by decide)⟩
    exact List.forall_mem_singleton.mpr
      (List.forall_mem_cons.mpr ⟨hlower, List.forall_mem_singleton.mpr hupper⟩)
  exact (hspec hordinary .sample Semver.ordinary_sample.regular.toComparable).2

end Range

end VersionConstraints
