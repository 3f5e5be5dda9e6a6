import Mathlib.Data.Finset.Prod
import Mathlib.Tactic.Ring
import VersionConstraints.Proofs.Interval.Canonical

/-!
# Where bounds come from

To tighten bounds is to choose among them, and to settle one either keeps it or puts the release in
the place of a prerelease. So an intersection has no bound but those of the two intervals, and the
releases of those that are prereleases. From finitely many bounds come at most twice as many, up to
builds and grammars.
-/

namespace VersionConstraints

namespace Bound

variable {xs : List (Option Bound)} {x : Option Bound} {inclusive : Bool}

/-! ### Origins of bounds -/

/-- Whether an optional bound is one of some bounds, or at the release of a prerelease among them,
and inclusive or not as given. -/
def ComesFrom (inclusive : Bool) (xs : List (Option Bound)) (x : Option Bound) : Prop :=
  x ∈ xs ∨ ∃ b, some b ∈ xs ∧ b.version.isPrerelease = true ∧
    x = some ⟨.ofRelease b.version.release, inclusive⟩

/-- Settling a bound leaves it where it comes from. -/
lemma ComesFrom.settle (h : ComesFrom inclusive xs x) (rs : List Release) :
    ComesFrom inclusive xs (x.map (Interval.settle rs inclusive)) := by
  rcases h with hx | ⟨b, hb, hp, rfl⟩
  · cases x with
    | none => exact .inl hx
    | some b =>
      obtain heq | ⟨r, -, htier, heq⟩ := Interval.settle_cases inclusive rs b
      · rw [Option.map_some, heq]
        exact .inl hx
      · obtain ⟨hp, rfl⟩ := Semver.tier_eq_below_iff.mp htier
        exact .inr ⟨b, hx, hp, by rw [Option.map_some, heq]⟩
  · have hsettle : Interval.settle rs inclusive ⟨.ofRelease b.version.release, inclusive⟩ =
        ⟨.ofRelease b.version.release, inclusive⟩ :=
      Interval.settle_of_mem fun r hr => absurd hr (prereleaseOf?_ofRelease_ne _ r inclusive)
    exact .inr ⟨b, hb, hp, by rw [Option.map_some, hsettle]⟩

/-! ### How many bounds there are -/

/-- The different bounds among some bounds, where builds and grammars make no difference. -/
def different (xs : List (Option Bound)) : Finset (Option Bound) :=
  (xs.map (Option.map canonical)).toFinset

/-- The release of a bound in its place. -/
def released (inclusive : Bool) (b : Bound) : Bound :=
  ⟨.ofRelease b.version.release, inclusive⟩

/-- What can come from some bounds, where builds and grammars make no difference. -/
def candidates (inclusive : Bool) (xs : List (Option Bound)) : Finset (Option Bound) :=
  different xs ∪ (different xs).image (Option.map (released inclusive))

lemma mem_different (h : x ∈ xs) : x.map canonical ∈ different xs :=
  List.mem_toFinset.mpr (List.mem_map_of_mem h)

/-- A bound that comes from a list of bounds is one of the candidates, up to its written form. -/
lemma ComesFrom.mem_candidates (h : ComesFrom inclusive xs x) :
    x.map canonical ∈ candidates inclusive xs := by
  rcases h with hx | ⟨b, hb, -, rfl⟩
  · exact Finset.mem_union_left _ (mem_different hx)
  · exact Finset.mem_union_right _ (Finset.mem_image_of_mem _ (mem_different hb))

/-- Each bound of the list gives at most two candidates: itself and the release it settles at. -/
lemma card_candidates_le (inclusive : Bool) (xs : List (Option Bound)) :
    (candidates inclusive xs).card ≤ 2 * (different xs).card := by
  calc (candidates inclusive xs).card
    _ ≤ (different xs).card + ((different xs).image (Option.map (released inclusive))).card :=
      Finset.card_union_le _ _
    _ ≤ (different xs).card + (different xs).card := Nat.add_le_add_left Finset.card_image_le _
    _ = 2 * (different xs).card := (Nat.two_mul _).symm

end Bound

namespace Interval

variable {i j k : Interval} {xs ys : List (Option Bound)} {is : List Interval}

/-! ### Origins of intervals -/

/-- Whether both bounds of an interval come from given bounds. -/
structure ComesFrom (xs ys : List (Option Bound)) (i : Interval) : Prop where
  lower : Bound.ComesFrom true xs i.lower
  upper : Bound.ComesFrom false ys i.upper

/-- An intersection comes from where the two intervals come from. -/
theorem ComesFrom.intersect (hi : i.ComesFrom xs ys) (hj : j.ComesFrom xs ys)
    (hic : i.Comparable) (hjc : j.Comparable) (h : i.intersect j = .ok (some k)) :
    k.ComesFrom xs ys := by
  obtain ⟨lower, hlower, h⟩ := bind_eq_ok.mp h
  obtain ⟨upper, hupper, h⟩ := bind_eq_ok.mp h
  obtain ⟨rs, -, rfl, -⟩ := exists_of_normalize h
  constructor
  · refine Bound.ComesFrom.settle ?_ rs
    rcases (Bound.tighterLower_reaches hic.lower hjc.lower hlower).1 with rfl | rfl
    · exact hi.lower
    · exact hj.lower
  · refine Bound.ComesFrom.settle ?_ rs
    rcases (Bound.tighterUpper_reaches hic.upper hjc.upper hupper).1 with rfl | rfl
    · exact hi.upper
    · exact hj.upper

/-- The bounds of an interval, where builds and grammars make no difference. -/
def canonicalEnds (i : Interval) : Option Bound × Option Bound :=
  (i.canonical.lower, i.canonical.upper)

/-- An interval that comes from two lists has its ends among their candidates. -/
lemma ComesFrom.canonicalEnds_mem (h : i.ComesFrom xs ys) :
    i.canonicalEnds ∈ Bound.candidates true xs ×ˢ Bound.candidates false ys :=
  Finset.mem_product.mpr ⟨h.lower.mem_candidates, h.upper.mem_candidates⟩

/-- The span of an interval depends on its canonical ends alone. -/
lemma map_span_eq_map_canonicalEnds (is : List Interval) : is.map span =
    (is.map canonicalEnds).map fun e => .of (Bound.lowerCut? e.1) (Bound.upperCut? e.2) := by
  rw [List.map_map]
  exact List.map_congr_left fun i _ => (span_canonical i).symm

/-- There are at most four times as many intervals with different spans as there are pairs of
different bounds that they come from. -/
theorem length_le_of_comesFrom (hnodup : (is.map span).Nodup) (h : ∀ i ∈ is, i.ComesFrom xs ys) :
    is.length ≤ 4 * (Bound.different xs).card * (Bound.different ys).card := by
  have hends : (is.map canonicalEnds).Nodup := .of_map _ (map_span_eq_map_canonicalEnds is ▸ hnodup)
  have hsub : (is.map canonicalEnds).toFinset ⊆
      Bound.candidates true xs ×ˢ Bound.candidates false ys := by
    intro e he
    obtain ⟨i, hi, rfl⟩ := List.mem_map.mp (List.mem_toFinset.mp he)
    exact (h i hi).canonicalEnds_mem
  calc is.length
    _ = (is.map canonicalEnds).toFinset.card := by
      rw [List.toFinset_card_of_nodup hends, List.length_map]
    _ ≤ (Bound.candidates true xs ×ˢ Bound.candidates false ys).card := Finset.card_le_card hsub
    _ = (Bound.candidates true xs).card * (Bound.candidates false ys).card :=
      Finset.card_product _ _
    _ ≤ 2 * (Bound.different xs).card * (2 * (Bound.different ys).card) :=
      Nat.mul_le_mul (Bound.card_candidates_le _ _) (Bound.card_candidates_le _ _)
    _ = 4 * (Bound.different xs).card * (Bound.different ys).card := by ring

end Interval

end VersionConstraints
