import VersionConstraints.Proofs.Interval.Normal

/-!
# Comparable intervals

Where the versions of all bounds can be compared, nothing fails that only compares: membership, the
order of intervals, their texts, and the choice of the tighter bounds. The comparison need not be an
order for that.
-/

namespace VersionConstraints

namespace Bound

variable {a b : Bound} {v : Semver} {x y : Option Bound}

lemma exists_isBelow (hb : b.version.Comparable) (hv : v.Comparable) :
    ∃ ok, b.isBelow v = .ok ok := by
  rw [isBelow, hv.compare_eq hb, ok_bind]
  cases v.order b.version <;> exact ⟨_, rfl⟩

lemma exists_isAbove (hb : b.version.Comparable) (hv : v.Comparable) :
    ∃ ok, b.isAbove v = .ok ok := by
  rw [isAbove, hv.compare_eq hb, ok_bind]
  cases v.order b.version <;> exact ⟨_, rfl⟩

/-! ### The tighter of two bounds -/

lemma exists_tighterLower (hx : Comparable x) (hy : Comparable y) :
    ∃ z, tighterLower x y = .ok z := by
  cases x with
  | none => exact ⟨y, rfl⟩
  | some a =>
    cases y with
    | none => exact ⟨some a, rfl⟩
    | some b =>
      rw [tighterLower, (hx a rfl).compare_eq (hy b rfl), ok_bind]
      cases a.version.order b.version <;> exact ⟨_, rfl⟩

lemma exists_tighterUpper (hx : Comparable x) (hy : Comparable y) :
    ∃ z, tighterUpper x y = .ok z := by
  cases x with
  | none => exact ⟨y, rfl⟩
  | some a =>
    cases y with
    | none => exact ⟨some a, rfl⟩
    | some b =>
      rw [tighterUpper, (hx a rfl).compare_eq (hy b rfl), ok_bind]
      cases a.version.order b.version <;> exact ⟨_, rfl⟩

/-! ### The orders -/

lemma exists_compareLower (hx : Comparable x) (hy : Comparable y) :
    ∃ o, compareLower x y = .ok o := by
  cases x with
  | none => cases y <;> exact ⟨_, rfl⟩
  | some a =>
    cases y with
    | none => exact ⟨.gt, rfl⟩
    | some b =>
      rw [compareLower, (hx a rfl).compare_eq (hy b rfl)]
      exact ⟨_, rfl⟩

lemma exists_compareUpper (hx : Comparable x) (hy : Comparable y) :
    ∃ o, compareUpper x y = .ok o := by
  cases x with
  | none => cases y <;> exact ⟨_, rfl⟩
  | some a =>
    cases y with
    | none => exact ⟨.lt, rfl⟩
    | some b =>
      rw [compareUpper, (hx a rfl).compare_eq (hy b rfl)]
      exact ⟨_, rfl⟩

end Bound

namespace Interval

variable {i j : Interval} {v : Semver} {lower upper : Option Bound} {c : Comparator}
  {cs : List Comparator}

/-! ### Membership -/

lemma exists_isAboveLower (hlower : Bound.Comparable lower) (hv : v.Comparable) :
    ∃ ok, isAboveLower lower v = .ok ok := by
  cases lower with
  | none => exact ⟨true, rfl⟩
  | some b => exact Bound.exists_isBelow (hlower b rfl) hv

lemma exists_isBelowUpper (hupper : Bound.Comparable upper) (hv : v.Comparable) :
    ∃ ok, isBelowUpper upper v = .ok ok := by
  cases upper with
  | none => exact ⟨true, rfl⟩
  | some b => exact Bound.exists_isAbove (hupper b rfl) hv

/-- Membership returns where the bounds can be compared. -/
lemma Comparable.exists_contains (hi : i.Comparable) (hv : v.Comparable) :
    ∃ ok, i.contains v = .ok ok := by
  obtain ⟨above, habove⟩ := exists_isAboveLower hi.lower hv
  obtain ⟨below, hbelow⟩ := exists_isBelowUpper hi.upper hv
  rw [contains, habove, ok_bind]
  cases above with
  | false => exact ⟨false, rfl⟩
  | true =>
    rw [Bool.not_true, if_neg Bool.false_ne_true, hbelow, ok_bind]
    cases below <;> exact ⟨_, rfl⟩

/-! ### Order and text -/

/-- The order of intervals returns where their bounds can be compared. -/
lemma Comparable.exists_compare (hi : i.Comparable) (hj : j.Comparable) :
    ∃ o, i.compare j = .ok o := by
  obtain ⟨o, ho⟩ := Bound.exists_compareLower hi.lower hj.lower
  rw [compare, ho, ok_bind]
  cases o with
  | eq => exact Bound.exists_compareUpper hi.upper hj.upper
  | lt | gt => exact ⟨_, rfl⟩

lemma Comparable.exists_isBefore (hi : i.Comparable) (hj : j.Comparable) :
    ∃ ok, i.isBefore j = .ok ok := by
  obtain ⟨o, ho⟩ := hi.exists_compare hj
  rw [isBefore, ho]
  exact ⟨_, rfl⟩

lemma exists_isExact {a b : Bound} (ha : a.version.Comparable) (hb : b.version.Comparable) :
    ∃ ok, isExact a b = .ok ok := by
  rw [isExact, ha.compare_eq hb]
  split <;> exact ⟨_, rfl⟩

/-- The text of an interval returns where its bounds can be compared. -/
lemma Comparable.exists_text (hi : i.Comparable) : ∃ t, i.text = .ok t := by
  obtain ⟨x, y⟩ := i
  cases x with
  | none => cases y <;> exact ⟨_, rfl⟩
  | some a =>
    cases y with
    | none => exact ⟨_, rfl⟩
    | some b =>
      obtain ⟨ok, hok⟩ := exists_isExact (hi.lower a rfl) (hi.upper b rfl)
      simp only [text, hok, ok_bind]
      split <;> exact ⟨_, rfl⟩

/-! ### Tightening -/

lemma exists_tighten (hi : i.Comparable) (hc : c.Comparable) : ∃ j, i.tighten c = .ok j := by
  obtain ⟨lower, hlower⟩ := Bound.exists_tighterLower hi.lower hc.lower
  obtain ⟨upper, hupper⟩ := Bound.exists_tighterUpper hi.upper hc.upper
  rw [tighten_eq, hlower, ok_bind, hupper, ok_bind]
  exact ⟨_, rfl⟩

/-- Tightening brings in no bound that cannot be compared. -/
lemma comparable_of_tighten (hi : i.Comparable) (hc : c.Comparable) (h : i.tighten c = .ok j) :
    j.Comparable := by
  have htighten : i.tightenAll [c] = .ok j := by
    rw [tightenAll, h]
    rfl
  have hcs : ∀ d ∈ [c], d.Comparable := List.forall_mem_singleton.mpr hc
  exact (tightened_of_tightenAll hi hcs htighten).comparable hi hcs

/-- Comparators whose versions can be compared tighten two bounds. -/
lemma exists_tightenAll (hi : i.Comparable) (hcs : ∀ c ∈ cs, c.Comparable) :
    ∃ j, i.tightenAll cs = .ok j := by
  induction cs generalizing i with
  | nil => exact ⟨i, rfl⟩
  | cons c cs ih =>
    obtain ⟨hc, hcs⟩ := List.forall_mem_cons.mp hcs
    obtain ⟨j, hj⟩ := exists_tighten hi hc
    rw [tightenAll, hj, ok_bind]
    exact ih (comparable_of_tighten hi hc hj) hcs

end Interval

end VersionConstraints
