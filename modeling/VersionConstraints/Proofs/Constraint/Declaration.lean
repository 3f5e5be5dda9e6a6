import VersionConstraints.Constraint.Requirement
import VersionConstraints.Proofs.Range.Limits

/-!
# How declarations fail

A declaration of an unknown kind fails with that, and nothing else does. Branches and revisions
never fail. A version text can still fail after it was found to be a range expression: an
alternative of its canonical text is at a limit if it begins behind a version that has none directly
above it.
-/

namespace VersionConstraints

namespace RequirementKind

lemma name_of_ofName? {s : String} {k : RequirementKind} (h : ofName? s = some k) : k.name = s := by
  simpa using List.find?_some h

end RequirementKind

namespace Requirement

variable {kind s : String} {g : Grammar} {e : Error} {f : Fault} {as : List Alternative}

lemma ofVersionText_error_iff :
    ofVersionText g s = .error f ↔ Range.ofText g s.toList = .error f := by
  rw [ofVersionText, bind_eq_error, or_iff_left]
  rintro ⟨o, -, h⟩
  cases o <;> cases h

lemma ofFault_error_iff {α : Type} {x : Except Fault α} :
    Error.ofFault x = .error e ↔ ∃ f, x = .error f ∧ e = .fault f := by
  cases x with
  | error f => simp [Error.ofFault, eq_comm]
  | ok a => simp [Error.ofFault]

/-- A declaration fails if the kind is unknown, or if the text of a version is read with a fault. -/
lemma ofDeclaration_error_iff : ofDeclaration kind s g = .error e ↔
    (RequirementKind.ofName? kind = none ∧ e = .failure (.unknownKind kind s)) ∨
      RequirementKind.ofName? kind = some .version ∧
        ∃ f, Range.ofText g s.toList = .error f ∧ e = .fault f := by
  simp only [← ofVersionText_error_iff, ← ofFault_error_iff]
  rw [ofDeclaration]
  cases RequirementKind.ofName? kind with
  | none => simp [eq_comm]
  | some k => cases k <;> simp

/-- Only a declared range fails, and it fails as its text does. -/
lemma ofDeclaration_fault_iff : ofDeclaration kind s g = .error (.fault f) ↔
    RequirementKind.ofName? kind = some .version ∧ Range.ofText g s.toList = .error f := by
  rw [ofDeclaration_error_iff]
  simp

/-- The declaration of a version text returns if and only if reading it does. -/
lemma exists_ofDeclaration_iff : (∃ q, ofDeclaration "version" s g = .ok q) ↔
    ∃ o, Range.ofText g s.toList = .ok o := by
  have hversion : RequirementKind.ofName? "version" = some .version := rfl
  cases hread : Range.ofText g s.toList with
  | error f =>
    rw [ofDeclaration_fault_iff.mpr ⟨hversion, hread⟩]
    exact iff_of_false nofun nofun
  | ok o =>
    refine iff_of_true ?_ ⟨o, rfl⟩
    cases hq : ofDeclaration "version" s g with
    | ok q => exact ⟨q, rfl⟩
    | error e =>
      obtain ⟨hnone, -⟩ | ⟨-, f, hf, -⟩ := ofDeclaration_error_iff.mp hq
      · cases hnone
      · exact absurd (hread.symm.trans hf) nofun

/-- A declaration fails with an unknown kind exactly if its kind is unknown. Apart from that only
the version kind fails: where the canonical text cannot be read, where one of its versions cannot be
compared, or where one of its alternatives is at a limit. The first of these
is exact, and so is the last if all versions can be compared. A text that is read strictly fails in
no other way than that. -/
theorem ofDeclaration_fails (kind s : String) (g : Grammar) :
    (∀ f, ofDeclaration kind s g = .error (.failure f) ↔
      RequirementKind.ofName? kind = none ∧ f = .unknownKind kind s) ∧
    (∀ f, ofDeclaration kind s g = .error (.fault f) → kind = "version" ∧
      (Range.NotReread g s.toList f ∨ ∃ as, Range.FoldedFrom g s.toList as ∧
        ((∃ a ∈ as, ∃ c ∈ a, ¬ c.Comparable) ∨ ∃ a ∈ as, a.Stuck f))) ∧
    (∀ as, Range.FoldedFrom g s.toList as → (∀ a ∈ as, ∀ c ∈ a, c.Comparable) →
      ((∃ q, ofDeclaration "version" s g = .ok q) ↔ ∀ a ∈ as, ∀ f, ¬ a.Stuck f)) ∧
    (∀ f, ofDeclaration "version" s .strict = .error (.fault f) →
      (f = .tooLong ∨ f = .tooLarge .patch) ∧
        ∃ as, Range.FoldedFrom .strict s.toList as ∧ ∃ a ∈ as, a.Stuck f) ∧
    ((∃ q, ofDeclaration "version" s .strict = .ok q) ↔
      ∀ as, Range.FoldedFrom .strict s.toList as → ∀ a ∈ as, ∀ f, ¬ a.Stuck f) ∧
    (∀ f, Range.NotReread g s.toList f → ofDeclaration "version" s g = .error (.fault f)) := by
  refine ⟨fun f => ?_, fun f h => ?_, fun as hfold has => ?_, fun f h => ?_, ?_, fun f h => ?_⟩
  · rw [ofDeclaration_error_iff]
    simp
  · obtain ⟨hkind, hread⟩ := ofDeclaration_fault_iff.mp h
    exact ⟨(RequirementKind.name_of_ofName? hkind).symm, Range.failsOnly_ofText g _ f hread⟩
  · rw [exists_ofDeclaration_iff, hfold.exists_ofText_iff has]
  · obtain ⟨as, hfold, a, ha, hstuck⟩ :=
      Range.failsOnly_ofText_strict _ f (ofDeclaration_fault_iff.mp h).2
    exact ⟨hstuck.eq_or, as, hfold, a, ha, hstuck⟩
  · rw [exists_ofDeclaration_iff, Range.exists_ofText_strict_iff]
  · exact ofDeclaration_fault_iff.mpr ⟨rfl, h.ofText_eq⟩

/-- A text with the last patch of a minor version as its exclusive end. -/
def lastPatchText : String := ">1.2.9007199254740991"

def lastPatch : Alternative :=
  [.bounded .above ⟨⟨1, 2, Numeral.maxSafe⟩, [], [], .strict⟩]

lemma ofDeclaration_lastPatch :
    ofDeclaration "version" lastPatchText .strict = .error (.fault (.tooLarge .patch)) := by
  decide +kernel

theorem ofDeclaration_fails_lastPatch :
    (∃ as, Range.FoldedFrom .strict lastPatchText.toList as ∧
      ∃ a ∈ as, a.Stuck (.tooLarge .patch)) ∧ ∃ f, lastPatch.Stuck f := by
  obtain ⟨-, -, hexact, hfault, -⟩ := ofDeclaration_fails "version" lastPatchText .strict
  refine ⟨(hfault _ ofDeclaration_lastPatch).2, ?_⟩
  have hfold : Range.FoldedFrom .strict lastPatchText.toList [lastPatch] :=
    ⟨lastPatchText.toList, by decide +kernel, by decide +kernel⟩
  have hcomparable : ∀ a ∈ [lastPatch], ∀ c ∈ a, c.Comparable :=
    List.forall_mem_singleton.mpr (List.forall_mem_singleton.mpr
      (Semver.comparable_ofRelease (by decide)))
  by_contra hnone
  obtain ⟨q, hq⟩ := (hexact _ hfold hcomparable).mpr
    (List.forall_mem_singleton.mpr fun f hf => hnone ⟨f, hf⟩)
  rw [ofDeclaration_lastPatch] at hq
  cases hq

/-- The kind of this declaration is known and its text is a range expression, but it fails. -/
theorem ofDeclaration_fault_lastPatch :
    RequirementKind.ofName? "version" = some .version ∧
      (Expression.withoutCommas? (Text.trim lastPatchText.toList)).bind
        (Expression.canonicalText? .strict) = some lastPatchText.toList ∧
      ofDeclaration "version" lastPatchText .strict = .error (.fault (.tooLarge .patch)) :=
  ⟨rfl, by decide +kernel, ofDeclaration_lastPatch⟩

end Requirement

end VersionConstraints
