import VersionConstraints.Interval.Basic
import VersionConstraints.Proofs.Interval.Cut

/-!
# Bounds as cuts

A bound with a regular version is a cut. To test a version against a bound is to compare its place
with the cut; the tighter of two lower bounds is the greater cut, the tighter of two upper bounds the
lesser one; and the orders of bounds are the order of cuts.
-/

namespace VersionConstraints

namespace Bound

/-! ### Cuts of bounds -/

def lowerCut (b : Bound) : Cut :=
  .beside b.version.precedence (!b.inclusive)

def upperCut (b : Bound) : Cut :=
  .beside b.version.precedence b.inclusive

def lowerCut? : Option Bound → Cut
  | none   => ⊥
  | some b => b.lowerCut

def upperCut? : Option Bound → Cut
  | none   => ⊤
  | some b => b.upperCut

def Regular (b : Option Bound) : Prop :=
  ∀ c ∈ b, c.version.Regular

variable {a b : Bound} {v : Semver} {r : Release} {x y : Option Bound}

lemma regular_none : Regular none := nofun

lemma regular_some : Regular (some b) ↔ b.version.Regular := by
  simp [Regular]

/-! ### Prerelease bounds -/

lemma prereleaseOf?_eq_some :
    b.prereleaseOf? = some r ↔ b.version.isPrerelease = true ∧ b.version.release = r := by
  simp [prereleaseOf?]

/-- A bound at a release names no release of which it lets prereleases in. -/
lemma prereleaseOf?_ofRelease_ne (q r : Release) (inclusive : Bool) :
    (Bound.mk (.ofRelease q) inclusive).prereleaseOf? ≠ some r := by
  intro h
  cases (prereleaseOf?_eq_some.mp h).1

/-- The cuts at a prerelease bound, and no others, are in the zone of its release. -/
lemma beside_mem_zone {isBehind : Bool} :
    .beside b.version.precedence isBehind ∈ Cut.zone r ↔ b.prereleaseOf? = some r := by
  rw [Cut.beside_precedence_mem_zone, prereleaseOf?_eq_some]

lemma safe_of_prereleaseOf? (hb : b.version.Regular) (hr : b.prereleaseOf? = some r) :
    r.Safe := by
  obtain ⟨-, rfl⟩ := prereleaseOf?_eq_some.mp hr
  exact hb.wellFormed.release

/-! ### Versions beyond a bound -/

/-- A version is above a lower bound if its place is behind the cut of the bound. -/
lemma isBelow_spec (hb : b.version.Regular) (hv : v.Comparable) :
    Yields (b.isBelow v) fun ok => ok = true ↔ b.lowerCut ≤ .before v.precedence := by
  apply (hv.compare_spec hb).bind
  intro o ho
  have hcut := Cut.beside_compares ho (compares_compare false (!b.inclusive))
  rw [lowerCut, Cut.before, ← hcut.ne_lt]
  cases o with
  | lt => exact .ok (by simp)
  | eq => exact .ok (by cases b.inclusive <;> decide)
  | gt => exact .ok (by simp)

/-- A version is below an upper bound if its place is before the cut of the bound. -/
lemma isAbove_spec (hb : b.version.Regular) (hv : v.Comparable) :
    Yields (b.isAbove v) fun ok => ok = true ↔ .before v.precedence < b.upperCut := by
  apply (hv.compare_spec hb).bind
  intro o ho
  have hcut := Cut.beside_compares ho (compares_compare false b.inclusive)
  rw [upperCut, Cut.before, ← hcut.eq_lt]
  cases o with
  | lt => exact .ok (by simp)
  | eq => exact .ok (by cases b.inclusive <;> decide)
  | gt => exact .ok (by simp)

/-! ### The orders -/

lemma compares_not (x y : Bool) : (compare y x).Compares (!x) (!y) := by
  have hswap : compare y x = compare (!x) (!y) := by cases x <;> cases y <;> rfl
  rw [hswap]
  exact compares_compare _ _

/-- Versions compare as the cuts of inclusive and exclusive lower bounds at them do. -/
lemma compare_lowerCut_spec (ha : a.version.Regular) (hb : b.version.Regular) :
    Yields (a.version.compare b.version) fun o =>
      (o.then (compare b.inclusive a.inclusive)).Compares a.lowerCut b.lowerCut :=
  (ha.compare_spec hb).imp fun _ ho => Cut.beside_compares ho (compares_not _ _)

/-- Versions compare as the cuts of inclusive and exclusive upper bounds at them do. -/
lemma compare_upperCut_spec (ha : a.version.Regular) (hb : b.version.Regular) :
    Yields (a.version.compare b.version) fun o =>
      (o.then (compare a.inclusive b.inclusive)).Compares a.upperCut b.upperCut :=
  (ha.compare_spec hb).imp fun _ ho => Cut.beside_compares ho (compares_compare _ _)

lemma bot_lt_lowerCut : ⊥ < b.lowerCut := Cut.bot_lt_beside

lemma upperCut_lt_top : b.upperCut < ⊤ := Cut.beside_lt_top

/-- Lower bounds compare as their cuts do. -/
lemma compareLower_spec (hx : Regular x) (hy : Regular y) :
    Yields (compareLower x y) fun o => o.Compares (lowerCut? x) (lowerCut? y) := by
  cases x with
  | none =>
    cases y with
    | none => exact .ok rfl
    | some b => exact .ok bot_lt_lowerCut
  | some a =>
    cases y with
    | none => exact .ok bot_lt_lowerCut
    | some b =>
      exact (compare_lowerCut_spec (hx a rfl) (hy b rfl)).bind fun o ho => .ok ho

/-- Upper bounds compare as their cuts do. -/
lemma compareUpper_spec (hx : Regular x) (hy : Regular y) :
    Yields (compareUpper x y) fun o => o.Compares (upperCut? x) (upperCut? y) := by
  cases x with
  | none =>
    cases y with
    | none => exact .ok rfl
    | some b => exact .ok upperCut_lt_top
  | some a =>
    cases y with
    | none => exact .ok upperCut_lt_top
    | some b =>
      exact (compare_upperCut_spec (hx a rfl) (hy b rfl)).bind fun o ho => .ok ho

/-! ### The tighter of two bounds -/

@[simp] lemma tighterLower_none (x : Option Bound) : tighterLower x none = .ok x := by
  cases x <;> rfl

@[simp] lemma tighterUpper_none (x : Option Bound) : tighterUpper x none = .ok x := by
  cases x <;> rfl

/-- The tighter of two lower bounds is at the later cut. -/
lemma tighterLower_spec (hx : Regular x) (hy : Regular y) :
    Yields (tighterLower x y) fun z =>
      Regular z ∧ lowerCut? z = max (lowerCut? x) (lowerCut? y) := by
  cases x with
  | none => exact .ok ⟨hy, (max_eq_right bot_le).symm⟩
  | some a =>
    cases y with
    | none => exact .ok ⟨hx, (max_eq_left bot_le).symm⟩
    | some b =>
      apply (compare_lowerCut_spec (hx a rfl) (hy b rfl)).bind
      intro o ho
      cases o with
      | lt => exact .ok ⟨hy, (max_eq_right (ho.ne_gt.mp nofun)).symm⟩
      | gt => exact .ok ⟨hx, (max_eq_left (ho.ne_lt.mp nofun)).symm⟩
      | eq =>
        cases ha : a.inclusive with
        | true =>
          refine .ok ⟨hy, (max_eq_right (ho.ne_gt.mp ?_)).symm⟩
          rw [ha]
          cases b.inclusive <;> decide
        | false =>
          refine .ok ⟨hx, (max_eq_left (ho.ne_lt.mp ?_)).symm⟩
          rw [ha]
          cases b.inclusive <;> decide

/-- The tighter of two upper bounds is at the earlier cut. -/
lemma tighterUpper_spec (hx : Regular x) (hy : Regular y) :
    Yields (tighterUpper x y) fun z =>
      Regular z ∧ upperCut? z = min (upperCut? x) (upperCut? y) := by
  cases x with
  | none => exact .ok ⟨hy, (min_eq_right le_top).symm⟩
  | some a =>
    cases y with
    | none => exact .ok ⟨hx, (min_eq_left le_top).symm⟩
    | some b =>
      apply (compare_upperCut_spec (hx a rfl) (hy b rfl)).bind
      intro o ho
      cases o with
      | lt => exact .ok ⟨hx, (min_eq_left (ho.ne_gt.mp nofun)).symm⟩
      | gt => exact .ok ⟨hy, (min_eq_right (ho.ne_lt.mp nofun)).symm⟩
      | eq =>
        cases ha : a.inclusive with
        | true =>
          refine .ok ⟨hy, (min_eq_right (ho.ne_lt.mp ?_)).symm⟩
          rw [ha]
          cases b.inclusive <;> decide
        | false =>
          refine .ok ⟨hx, (min_eq_left (ho.ne_gt.mp ?_)).symm⟩
          rw [ha]
          cases b.inclusive <;> decide

/-! ### Bounds at one cut -/

/-- Whether two bounds differ in nothing but the grammars and the builds of their versions. -/
structure Alike (a b : Bound) : Prop where
  release : a.version.release = b.version.release
  prerelease : a.version.prerelease = b.version.prerelease
  inclusive : a.inclusive = b.inclusive

/-- Lower bounds at one cut differ in their grammars and builds only. -/
lemma alike_of_lowerCut_eq (ha : a.version.Regular) (hb : b.version.Regular)
    (h : a.lowerCut = b.lowerCut) : Alike a b := by
  obtain ⟨hplace, hinclusive⟩ := Cut.beside_inj.mp h
  obtain ⟨hrelease, hprerelease⟩ := ha.wellFormed.eq_of_precedence_eq hb hplace
  exact ⟨hrelease, hprerelease, Bool.not_inj hinclusive⟩

/-- Upper bounds at one cut differ in their grammars and builds only. -/
lemma alike_of_upperCut_eq (ha : a.version.Regular) (hb : b.version.Regular)
    (h : a.upperCut = b.upperCut) : Alike a b := by
  obtain ⟨hplace, hinclusive⟩ := Cut.beside_inj.mp h
  obtain ⟨hrelease, hprerelease⟩ := ha.wellFormed.eq_of_precedence_eq hb hplace
  exact ⟨hrelease, hprerelease, hinclusive⟩

lemma alike_of_lowerCut?_eq (hx : Regular x) (hy : Regular y) (h : lowerCut? x = lowerCut? y) :
    Option.Rel Alike x y := by
  cases x with
  | none =>
    cases y with
    | none => exact .none
    | some b => exact absurd h bot_lt_lowerCut.ne
  | some a =>
    cases y with
    | none => exact absurd h bot_lt_lowerCut.ne'
    | some b => exact .some (alike_of_lowerCut_eq (hx a rfl) (hy b rfl) h)

lemma alike_of_upperCut?_eq (hx : Regular x) (hy : Regular y) (h : upperCut? x = upperCut? y) :
    Option.Rel Alike x y := by
  cases x with
  | none =>
    cases y with
    | none => exact .none
    | some b => exact absurd h upperCut_lt_top.ne'
  | some a =>
    cases y with
    | none => exact absurd h upperCut_lt_top.ne
    | some b => exact .some (alike_of_upperCut_eq (hx a rfl) (hy b rfl) h)

lemma Alike.text_eq (h : Alike a b) : a.version.text = b.version.text := by
  rw [Semver.text_eq, Semver.text_eq, h.release, h.prerelease]

lemma Alike.order_eq {a' b' : Bound} (h : Alike a b) (h' : Alike a' b') :
    a.version.order a'.version = b.version.order b'.version := by
  rw [Semver.order, Semver.order, h.release, h.prerelease, h'.release, h'.prerelease]

end Bound

end VersionConstraints
