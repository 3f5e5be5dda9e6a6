import Mathlib.Order.Interval.Set.Basic
import Mathlib.Order.MinMax
import VersionConstraints.Proofs.Semver.Precedence

/-!
# Cuts

A cut parts the places of versions into those below and those above. A bound is a cut directly
before or directly behind its version, and an absent bound is a cut before or behind everything.

The zone of a release has the cuts at its prereleases. Settling moves a cut out of the zones of all
releases that are not in a given set, to the cut directly before the release.
-/

namespace VersionConstraints

/-- Where the places of versions can be parted. -/
abbrev Cut := WithBot (WithTop (Precedence ×ₗ Bool))

namespace Cut

/-- The cut directly before or behind a place. -/
def beside (p : Precedence) (isBehind : Bool) : Cut :=
  ((toLex (p, isBehind) : Precedence ×ₗ Bool) : WithTop (Precedence ×ₗ Bool))

def before (p : Precedence) : Cut := beside p false

def behind (p : Precedence) : Cut := beside p true

variable {p q : Precedence} {r s : Release} {c d : Cut} {D D' : Set Release}

/-- Cuts compare by their places first, and then by the side they are on. -/
lemma beside_compares {o o' : Ordering} {x y : Bool} (h : o.Compares p q) (h' : o'.Compares x y) :
    (o.then o').Compares (beside p x) (beside q y) :=
  WithBot.coe_strictMono.compares.mpr (WithTop.coe_strictMono.compares.mpr (compares_toLex h h'))

lemma beside_inj {x y : Bool} : beside p x = beside q y ↔ p = q ∧ x = y := by
  simp [beside]

lemma bot_lt_beside {x : Bool} : ⊥ < beside p x := WithBot.bot_lt_coe _

lemma beside_lt_top {x : Bool} : beside p x < ⊤ := WithBot.coe_lt_coe.mpr (WithTop.coe_lt_top _)

lemma before_lt_before : before p < before q ↔ p < q := by
  simp [before, beside, Prod.Lex.toLex_lt_toLex]

lemma behind_lt_before : behind p < before q ↔ p < q := by
  simp [before, behind, beside, Prod.Lex.toLex_lt_toLex]

/-- A cut behind a place is not behind the cuts before later places. -/
lemma behind_le_before : behind p ≤ before q ↔ p < q := by
  simp [before, behind, beside, Prod.Lex.toLex_le_toLex]

lemma before_le_before : before p ≤ before q ↔ p ≤ q := by
  rw [← not_lt, before_lt_before, not_lt]

lemma before_le_behind : before p ≤ behind q ↔ p ≤ q := by
  rw [← not_lt, behind_lt_before, not_lt]

lemma before_lt_behind : before p < behind q ↔ p ≤ q := by
  rw [← not_le, behind_le_before, not_lt]

/-! ### Zones -/

/-- The cuts before and behind the prereleases of a release. -/
def zone (r : Release) : Set Cut :=
  Set.Ico (before (.lowest r)) (before (.ofRelease r))

/-- The zone of a release has the cuts beside places in front of the release itself. -/
lemma beside_mem_zone {x : Bool} :
    beside p x ∈ zone r ↔ ∃ y : Rank ×ₗ List Rank, p = toLex (r, ↑y) := by
  rw [← Precedence.lowest_le_and_lt_iff]
  cases x with
  | false => exact and_congr before_le_before before_lt_before
  | true => exact and_congr before_le_behind behind_lt_before

/-- The cuts beside a version are in a zone if it is a prerelease of that release. -/
lemma beside_precedence_mem_zone {v : Semver} {x : Bool} :
    beside v.precedence x ∈ zone r ↔ v.isPrerelease = true ∧ v.release = r := by
  rw [beside_mem_zone]
  constructor
  · rintro ⟨y, hy⟩
    refine ⟨?_, (Prod.mk.inj (toLex.injective hy)).1⟩
    by_contra h
    rw [Semver.precedence_of_not_isPrerelease (by simpa using h)] at hy
    cases hy
  · rintro ⟨hp, rfl⟩
    exact Semver.exists_precedence_of_isPrerelease hp

lemma before_ofRelease_not_mem_zone : before (.ofRelease s) ∉ zone r := by
  intro h
  obtain ⟨y, hy⟩ := beside_mem_zone.mp h
  cases hy

lemma bot_not_mem_zone : (⊥ : Cut) ∉ zone r := by
  simp [zone, before, beside]

lemma top_not_mem_zone : (⊤ : Cut) ∉ zone r := by
  simp [zone, before, beside]

/-- A cut is in the zone of one release only. -/
lemma eq_of_mem_zone (hr : c ∈ zone r) (hs : c ∈ zone s) : r = s := by
  have hrs := before_lt_before.mp (hr.1.trans_lt hs.2)
  have hsr := before_lt_before.mp (hs.1.trans_lt hr.2)
  exact le_antisymm (Prod.Lex.lt_iff'.mp hrs).1 (Prod.Lex.lt_iff'.mp hsr).1

/-! ### Settling -/

/-- Whether a cut is in the zones of releases of a set only. -/
def Settled (D : Set Release) (c : Cut) : Prop :=
  ∀ r, c ∈ zone r → r ∈ D

open Classical in
/-- The cut before the release of whose zone a cut is, if the release is not in a given set; else
the cut itself. -/
noncomputable def settle (D : Set Release) (c : Cut) : Cut :=
  if h : ∃ r ∉ D, c ∈ zone r then before (.ofRelease h.choose) else c

/-- A settled cut stays where it is. -/
lemma settle_of_settled (h : Settled D c) : settle D c = c := by
  rw [settle, dif_neg]
  rintro ⟨r, hr, hc⟩
  exact hr (h r hc)

/-- A cut in the zone of a release that is not let in moves to the release. -/
lemma settle_of_mem_zone (hr : r ∉ D) (hc : c ∈ zone r) : settle D c = before (.ofRelease r) := by
  have h : ∃ r ∉ D, c ∈ zone r := ⟨r, hr, hc⟩
  rw [settle, dif_pos h, eq_of_mem_zone h.choose_spec.2 hc]

lemma settled_before_ofRelease : Settled D (before (.ofRelease r)) :=
  fun _ hs => absurd hs before_ofRelease_not_mem_zone

/-- Settling leaves a settled cut. -/
lemma settled_settle : Settled D (settle D c) := by
  by_cases h : Settled D c
  · rw [settle_of_settled h]
    exact h
  · obtain ⟨r, hc, hr⟩ : ∃ r, c ∈ zone r ∧ r ∉ D := by simpa [Settled] using h
    rw [settle_of_mem_zone hr hc]
    exact settled_before_ofRelease

/-- Settling moves a cut up, if at all. -/
lemma le_settle : c ≤ settle D c := by
  by_cases h : Settled D c
  · rw [settle_of_settled h]
  · obtain ⟨r, hc, hr⟩ : ∃ r, c ∈ zone r ∧ r ∉ D := by simpa [Settled] using h
    rw [settle_of_mem_zone hr hc]
    exact hc.2.le

/-- Settling gives the least settled cut that is not below a given one. -/
lemma settle_le_iff (hd : Settled D d) : settle D c ≤ d ↔ c ≤ d := by
  refine ⟨le_settle.trans, ?_⟩
  intro hle
  by_cases h : Settled D c
  · rw [settle_of_settled h]
    exact hle
  · obtain ⟨r, hc, hr⟩ : ∃ r, c ∈ zone r ∧ r ∉ D := by simpa [Settled] using h
    rw [settle_of_mem_zone hr hc]
    by_contra hlt
    exact hr (hd r ⟨hc.1.trans hle, not_le.mp hlt⟩)

/-- Settling moves a cut over no settled one. -/
lemma lt_settle_iff (hd : Settled D d) : d < settle D c ↔ d < c := by
  rw [← not_le, settle_le_iff hd, not_le]

/-- Settling keeps the order of cuts. -/
lemma settle_mono (h : c ≤ d) : settle D c ≤ settle D d :=
  (settle_le_iff settled_settle).mpr (h.trans le_settle)

/-- To settle the later of two cuts is to take the later of both when settled. -/
lemma settle_max : settle D (max c d) = max (settle D c) (settle D d) :=
  Monotone.map_max fun _ _ => settle_mono

/-- To settle the earlier of two cuts is to take the earlier of both when settled. -/
lemma settle_min : settle D (min c d) = min (settle D c) (settle D d) :=
  Monotone.map_min fun _ _ => settle_mono

/-- Settling twice is settling once, for the smaller set. -/
lemma settle_settle (h : D ⊆ D') : settle D (settle D' c) = settle D c := by
  refine le_antisymm ?_ (settle_mono le_settle)
  have hsettled : Settled D' (settle D c) := fun r hr => h (settled_settle r hr)
  exact (settle_le_iff settled_settle).mpr ((settle_le_iff hsettled).mpr le_settle)

end Cut

end VersionConstraints
