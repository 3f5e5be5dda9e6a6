import VersionConstraints.Proofs.Constraint.Representation
import VersionConstraints.Proofs.Interval.Provenance

/-!
# What many intersections make of a few constraints

Each intersection pairs all intervals of two ranges, so nothing keeps the number of intervals small
at first sight. But the bounds all come from the constraints at the beginning, and no interval is
there twice. So the number of intervals stays below a bound that the constraints at the beginning
set, however often they are intersected.
-/

namespace VersionConstraints

namespace Constraint

variable {S ds : List Constraint} {c e : Constraint}

/-- The lower bounds of some constraints, those that are absent too. -/
def lowerBounds (S : List Constraint) : List (Option Bound) :=
  S.flatMap fun c => c.intervals.map Interval.lower

/-- The upper bounds of some constraints, those that are absent too. -/
def upperBounds (S : List Constraint) : List (Option Bound) :=
  S.flatMap fun c => c.intervals.map Interval.upper

/-- The constraints that intersections make of some constraints, in any order and any number of
steps. -/
inductive MadeOf (S : List Constraint) : Constraint → Prop
  | member {c : Constraint} (hc : c ∈ S) : MadeOf S c
  | intersect {c d e : Constraint} (hc : MadeOf S c) (hd : MadeOf S d)
      (h : c.intersect d = .ok e) : MadeOf S e

/-- A fold of some constraints is made of them. -/
lemma MadeOf.of_intersectFrom (hc : c ∈ S) (hds : ∀ d ∈ ds, d ∈ S)
    (h : c.intersectFrom ds = .ok e) : MadeOf S e :=
  intersectFrom_of_intersect (fun d hd => .member (hds d hd)) (fun _ _ _ => .intersect)
    (.member hc) h

lemma MadeOf.reachable (hS : ∀ c ∈ S, c.Reachable) (h : MadeOf S e) : e.Reachable := by
  induction h with
  | member hc => exact hS _ hc
  | intersect _ _ h ihc ihd => exact .intersect ihc ihd h

/-- The intervals of a constraint come from its own bounds. -/
lemma comesFrom_of_mem (hc : c ∈ S) :
    ∀ i ∈ c.intervals, i.ComesFrom (lowerBounds S) (upperBounds S) := by
  intro i hi
  constructor
  · exact .inl (List.mem_flatMap.mpr ⟨c, hc, List.mem_map_of_mem hi⟩)
  · exact .inl (List.mem_flatMap.mpr ⟨c, hc, List.mem_map_of_mem hi⟩)

/-- Intersections, however many, keep to the bounds of the constraints they are made of. -/
lemma MadeOf.comesFrom (hS : ∀ c ∈ S, c.Reachable) (h : MadeOf S e) :
    ∀ i ∈ e.intervals, i.ComesFrom (lowerBounds S) (upperBounds S) := by
  induction h with
  | member hc => exact comesFrom_of_mem hc
  | intersect hc hd h ihc ihd =>
    have hcc := (hc.reachable hS).regular_and_normal.2.toComparable
    have hdc := (hd.reachable hS).regular_and_normal.2.toComparable
    refine forall_intervals_of_intersect ihc ihd ?_ h
    intro i hi j hj k hk
    exact (ihc i hi).intersect (ihd j hj) (hcc i hi) (hdc j hj) hk

/-- Of what is made of reachable constraints by intersections, each bound is one of theirs, or the
release of a prerelease among these. So there are at most four times as many intervals as pairs of
their different bounds, after however many intersections. -/
theorem bounds_of_madeOf (S : List Constraint) (hS : ∀ c ∈ S, c.Reachable) (e : Constraint)
    (he : MadeOf S e) :
    (∀ i ∈ e.intervals,
      (i.lower ∈ lowerBounds S ∨ ∃ b, some b ∈ lowerBounds S ∧ b.version.isPrerelease = true ∧
        i.lower = some ⟨.ofRelease b.version.release, true⟩) ∧
      (i.upper ∈ upperBounds S ∨ ∃ b, some b ∈ upperBounds S ∧ b.version.isPrerelease = true ∧
        i.upper = some ⟨.ofRelease b.version.release, false⟩)) ∧
    e.intervals.length ≤
      4 * (Bound.different (lowerBounds S)).card * (Bound.different (upperBounds S)).card := by
  have hfrom := he.comesFrom hS
  constructor
  · intro i hi
    exact ⟨(hfrom i hi).lower, (hfrom i hi).upper⟩
  · exact Interval.length_le_of_comesFrom (he.reachable hS).ascending.nodup_map_span hfrom

lemma reachable_fromOne : fromOne.Reachable := by
  have hone : (Semver.ofRelease ⟨1, 0, 0⟩).Ordinary := Semver.ordinary_ofRelease (by decide)
  have hregular : fromOne.Regular := List.forall_mem_singleton.mpr
    ⟨Bound.regular_some.mpr hone.regular, Bound.regular_none⟩
  exact .declared ofDeclaration_fromOne hregular

/-- What `>=1.2.0-beta.3 <2.0.0` and `>=1.0.0` make together. -/
def fromRelease : Constraint :=
  .range [⟨some ⟨.ofRelease ⟨1, 2, 0⟩, true⟩, some ⟨.ofRelease ⟨2, 0, 0⟩, false⟩⟩] ">=1.2.0 <2.0.0"

/-- The lower bound of this constraint is none of those that it is made of, but the release of
one. -/
theorem bounds_of_madeOf_sample :
    sample.intersectFrom [fromOne, sample, fromOne] = .ok fromRelease ∧
      some ⟨.ofRelease ⟨1, 2, 0⟩, true⟩ ∉ lowerBounds [sample, fromOne] ∧
      (∃ b, some b ∈ lowerBounds [sample, fromOne] ∧ b.version.isPrerelease = true ∧
        some ⟨.ofRelease ⟨1, 2, 0⟩, true⟩ = some (⟨.ofRelease b.version.release, true⟩ : Bound)) ∧
      fromRelease.intervals.length ≤ 4 * 2 * 2 := by
  have hfold : sample.intersectFrom [fromOne, sample, fromOne] = .ok fromRelease := by
    decide +kernel
  have hnew : some ⟨.ofRelease ⟨1, 2, 0⟩, true⟩ ∉ lowerBounds [sample, fromOne] := by decide
  obtain ⟨hbounds, hlength⟩ := bounds_of_madeOf [sample, fromOne]
    (List.forall_mem_cons.mpr
      ⟨reachable_sample, List.forall_mem_singleton.mpr reachable_fromOne⟩)
    fromRelease (.of_intersectFrom (by simp) (by simp) hfold)
  refine ⟨hfold, hnew, ?_, hlength⟩
  exact (hbounds _ List.mem_cons_self).1.resolve_left hnew

end Constraint

end VersionConstraints
