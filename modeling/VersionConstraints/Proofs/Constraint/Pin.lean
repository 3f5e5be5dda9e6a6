import VersionConstraints.Proofs.Constraint.Reachable
import VersionConstraints.Proofs.Interval.Exact
import VersionConstraints.Proofs.Semver.Confusion

/-!
# What a pin contains

The pin of a version contains the versions of its kind with its text: the revision, the branch and
the literal with one text, and the semantic versions with one canonical text. Beyond that it
contains prereleases that are confused with the version, as they differ first at two numerals that
are rounded to the same number. There are none for an ordinary version.
-/

namespace VersionConstraints

namespace Version

variable {v w : Version}

/-- Whether two versions are semantic versions that are confused. -/
def Confused (v w : Version) : Prop :=
  ∃ s t, v.semver? = some s ∧ w.semver? = some t ∧ s.Confused t

lemma not_confused (h : v.Ordinary ∨ w.Ordinary) : ¬ v.Confused w := by
  rintro ⟨s, t, hs, ht, hconfused⟩
  rcases h with hv | hw
  · exact (hv s hs).regular.not_confused hconfused
  · exact (hw t ht).regular.not_confused hconfused.symm

lemma eq_of_semver? {s : Semver} (hv : v.unpaired = v) (h : v.semver? = some s) :
    v = .named (.semver s) := by
  cases v with
  | revision id => cases h
  | paired n id => cases hv
  | named n =>
    cases n with
    | branch name => cases h
    | plain text => cases h
    | semver t => rw [Option.some.inj h]

lemma form_ne_of_semver?_eq_none (h : v.semver? = none) : v.form ≠ .range := by
  cases v with
  | revision id => exact nofun
  | named n | paired n id =>
    cases n with
    | branch name | plain text => exact nofun
    | semver s => cases h

end Version

namespace Constraint

variable {v w : Version} {s t : Semver}

/-- The pin of a version contains the versions of the same order. -/
lemma contains_pin_semver (hs : s.Comparable) (w : Version) (hw : w.Comparable) :
    (pin (.named (.semver s))).contains w =
      .ok (decide (∃ t, w.semver? = some t ∧ t.order s = .eq)) := by
  cases ht : w.semver? with
  | none => simp [pin, ofRange, contains, ht]
  | some t =>
    have hcontains := Interval.contains_exact hs (hw t ht)
    simp only [pin, ofRange, contains, ht, Range.contains, hcontains, ok_bind, Option.some.injEq,
      exists_eq_left', pure_eq_ok]
    cases decide (t.order s = .eq) <;> rfl

/-- The pin of a version that is no semantic one contains the versions of its kind with its text. -/
lemma contains_pin_text (hv : v.unpaired = v) (hw : w.unpaired = w) (hnone : v.semver? = none) :
    (pin v).contains w = .ok (decide (v.form = w.form ∧ v.text = w.text)) := by
  cases v with
  | paired n id => cases hv
  | revision id =>
    cases w with
    | paired n id' => cases hw
    | revision id' => simp [pin, contains, Version.revision?, Version.form, Version.named?,
        Version.text, eq_comm]
    | named n =>
      cases n <;> simp [pin, contains, Version.revision?, Version.form, Version.named?]
  | named n =>
    cases n with
    | semver s => cases hnone
    | branch name =>
      cases w with
      | paired n id => cases hw
      | revision id => simp [pin, contains, Version.branch?, Version.form, Version.named?]
      | named n =>
        cases n <;> simp [pin, contains, Version.branch?, Version.form, Version.named?,
          Version.text, NamedVersion.text, eq_comm]
    | plain text =>
      cases w with
      | paired n id => cases hw
      | revision id => simp [pin, contains, Version.literal?, Version.form, Version.named?]
      | named n =>
        cases n <;> simp [pin, contains, Version.literal?, Version.form, Version.named?,
          Version.text, NamedVersion.text, eq_comm]

/-- A pin contains the versions of the kind of the pinned one that have its text, and the semantic
versions that are confused with it; so it contains exactly the pinned version if one of the two is
ordinary. -/
theorem contains_pin_iff (hv : v.unpaired = v) (hw : w.unpaired = w) (hvc : v.Comparable)
    (hwc : w.Comparable) : ∃ ok, (pin v).contains w = .ok ok ∧
      (ok = true ↔ (v.form = w.form ∧ v.text = w.text) ∨ w.Confused v) ∧
      (v.Ordinary ∨ w.Ordinary → (ok = true ↔ v.form = w.form ∧ v.text = w.text)) := by
  suffices h : ∃ ok, (pin v).contains w = .ok ok ∧
      (ok = true ↔ (v.form = w.form ∧ v.text = w.text) ∨ w.Confused v) by
    obtain ⟨ok, hok, hspec⟩ := h
    refine ⟨ok, hok, hspec, fun hordinary => hspec.trans ?_⟩
    exact or_iff_left (Version.not_confused hordinary.symm)
  cases hs : v.semver? with
  | none =>
    have hnot : ¬ w.Confused v := by
      rintro ⟨t, s, -, hs', -⟩
      rw [hs] at hs'
      cases hs'
    exact ⟨_, contains_pin_text hv hw hs, by rw [decide_eq_true_iff, or_iff_left hnot]⟩
  | some s =>
    obtain rfl := Version.eq_of_semver? hv hs
    refine ⟨_, contains_pin_semver (hvc s hs) w hwc, ?_⟩
    rw [decide_eq_true_iff]
    cases ht : w.semver? with
    | none =>
      refine iff_of_false nofun (not_or.mpr ⟨fun hform => ?_, ?_⟩)
      · exact Version.form_ne_of_semver?_eq_none ht hform.1.symm
      · rintro ⟨t, s', ht', -⟩
        rw [ht] at ht'
        cases ht'
    | some t =>
      obtain rfl := Version.eq_of_semver? hw ht
      have horder := (hwc t ht).order_eq_iff (hvc s hs)
      have htext : (Version.named (.semver s)).text = (Version.named (.semver t)).text ↔
          t.text = s.text := String.ofList_inj.trans eq_comm
      have hconfused : (Version.named (.semver t)).Confused (.named (.semver s)) ↔ t.Confused s := by
        constructor
        · rintro ⟨t', s', ⟨⟩, ⟨⟩, h⟩
          exact h
        · exact fun h => ⟨t, s, rfl, rfl, h⟩
      have hform : (Version.named (.semver s)).form = (Version.named (.semver t)).form := rfl
      rw [htext, hconfused, and_iff_right hform, ← horder]
      simp only [Option.some.injEq, exists_eq_left']

/-- The version `1.2.3-9007199254740993`, whose numeral lies halfway between two numbers that need
no rounding. -/
def halfway : Semver := ⟨⟨1, 2, 3⟩, [.word "9007199254740993".toList], [], .strict⟩

/-- The version `1.2.3-9007199254740992`, whose numeral `Constraint.halfway` has when rounded. -/
def rounded : Semver := ⟨⟨1, 2, 3⟩, [.word "9007199254740992".toList], [], .strict⟩

lemma ofString?_halfway : Semver.ofString? "1.2.3-9007199254740993" = some halfway := by
  decide

lemma ofString?_rounded : Semver.ofString? "1.2.3-9007199254740992" = some rounded := by
  decide

lemma comparable_of_ofString? {text : String} (h : Semver.ofString? text = some s) :
    (Version.named (.semver s)).Comparable := by
  rintro _ ⟨⟩
  cases hread : Semver.ofText .strict text.toList with
  | error f =>
    rw [Semver.ofString?, hread] at h
    cases h
  | ok t =>
    rw [Semver.ofString?, hread] at h
    cases h
    exact Semver.comparable_of_ofText hread

theorem contains_pin_iff_rounded : ∃ ok,
    (pin (.named (.semver halfway))).contains (.named (.semver rounded)) = .ok ok ∧
      (ok = true ↔
        ((Version.named (.semver halfway)).form = (Version.named (.semver rounded)).form ∧
          (Version.named (.semver halfway)).text = (Version.named (.semver rounded)).text) ∨
        (Version.named (.semver rounded)).Confused (.named (.semver halfway))) ∧
      ((Version.named (.semver halfway)).Ordinary ∨ (Version.named (.semver rounded)).Ordinary →
        (ok = true ↔
          (Version.named (.semver halfway)).form = (Version.named (.semver rounded)).form ∧
          (Version.named (.semver halfway)).text = (Version.named (.semver rounded)).text)) :=
  contains_pin_iff rfl rfl (comparable_of_ofString? ofString?_halfway)
    (comparable_of_ofString? ofString?_rounded)

/-- The pin of a version contains another version, which has another text. -/
theorem pin_contains_rounded :
    NamedVersion.semverOfString "1.2.3-9007199254740993" = .ok (.semver halfway) ∧
      NamedVersion.semverOfString "1.2.3-9007199254740992" = .ok (.semver rounded) ∧
      (pin (.named (.semver halfway))).contains (.named (.semver rounded)) = .ok true ∧
      (Version.named (.semver halfway)).text ≠ (Version.named (.semver rounded)).text := by
  decide +kernel

end Constraint

end VersionConstraints
