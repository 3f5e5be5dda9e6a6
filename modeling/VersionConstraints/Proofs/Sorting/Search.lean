import Mathlib.Data.Set.Defs
import Mathlib.Order.Lattice
import VersionConstraints.Order.Run
import VersionConstraints.Proofs.Outcome

/-!
# Searching finds where a test stops to hold

A test that holds exactly below some position is settled by that position: halving and galloping
both answer with it, from every hint. In a list that is sorted by a key, the tests of a sort are of
this form, and the position is the number of elements for which the test holds.
-/

namespace VersionConstraints

variable {ε α β : Type}

/-! ### Halving and galloping -/

namespace Search

variable {test : Nat → Except ε Bool} {k : Nat}

/-- Halving finds the position, once it lies in the range that is searched. -/
lemma halving_eq (h : ∀ i, test i = .ok (decide (i < k))) {low high : Nat} (hlow : low ≤ k)
    (hhigh : k ≤ high) : halving test low high = .ok k := by
  fun_induction halving test low high with
  | case1 low high hlt ih₁ ih₂ =>
    rw [h, ok_bind]
    split
    · next hk => exact ih₁ (of_decide_eq_true hk) hhigh
    · next hk => exact ih₂ hlow (by simpa using hk)
  | case2 low high hle =>
    rw [show high = k by omega]

/-- Doubling ends with a step that holds and one that does not. -/
lemma doubling_spec {limit : Nat} (h : ∀ i < limit, test i = .ok (decide (i < k)))
    (last step : Nat) (hlast : last < k) (hlimit : k ≤ limit) :
    ∃ last' step', doubling test limit last step = .ok (last', step') ∧
      last' < k ∧ k ≤ step' ∧ step' ≤ limit := by
  fun_induction doubling test limit last step with
  | case1 last step hlt ih₁ =>
    rw [h _ hlt, ok_bind]
    split
    · next hk => exact ih₁ (of_decide_eq_true hk)
    · next hk => exact ⟨last, step, rfl, hlast, by simpa using hk, by omega⟩
  | case2 last step hle => exact ⟨last, limit, rfl, hlast, hlimit, Nat.le_refl _⟩

/-- Galloping finds the position, whatever the hint. -/
lemma galloping_eq (h : ∀ i, test i = .ok (decide (i < k))) {length : Nat} (hk : k ≤ length)
    (hint : Nat) : galloping test length hint = .ok k := by
  simp only [galloping]
  rw [h, ok_bind]
  split
  · next hlt =>
    have hlt : hint < k := of_decide_eq_true hlt
    have htest : ∀ s < length - hint, test (hint + s) = .ok (decide (s < k - hint)) := by
      intro s _
      rw [h, Except.ok.injEq, decide_eq_decide]
      omega
    obtain ⟨last, step, heq, hlast, hstep, hlimit⟩ :=
      doubling_spec htest 0 1 (by omega) (by omega)
    rw [heq, ok_bind]
    exact halving_eq h (by omega) (by omega)
  · next hge =>
    have hge : k ≤ hint := by simpa using hge
    have htest : ∀ s < hint + 1, (do return !(← test (hint - s)) : Except ε Bool)
        = .ok (decide (s < hint - k + 1)) := by
      intro s _
      rw [h, ok_bind, pure_eq_ok, ← decide_not, Except.ok.injEq, decide_eq_decide]
      omega
    obtain ⟨last, step, heq, hlast, hstep, hlimit⟩ :=
      doubling_spec htest 0 1 (by omega) (by omega)
    rw [heq, ok_bind]
    exact halving_eq h (by omega) (by omega)

end Search

/-! ### First parts of a list -/

section FirstPart

variable {p : α → Bool} {xs : List α}

/-- If a test once failed fails for good, it fails for all elements where it fails for the first. -/
lemma countP_eq_zero_of_head {x : α} (h : ∀ y ∈ xs, p y → p x) (hx : p x = false) :
    (x :: xs).countP p = 0 := by
  rw [List.countP_eq_zero]
  intro y hy hpy
  rcases List.mem_cons.mp hy with rfl | hy
  · simp [hx] at hpy
  · simp [h y hy hpy] at hx

/-- A predicate that holds of a first part of a list holds at the positions below its count. -/
lemma any_getElem?_eq (h : xs.Pairwise fun x y => p y → p x) (i : Nat) :
    xs[i]?.any p = decide (i < xs.countP p) := by
  induction xs generalizing i with
  | nil => simp
  | cons x xs ih =>
    obtain ⟨hx, hxs⟩ := List.pairwise_cons.mp h
    cases hp : p x with
    | true => cases i <;> simp [hp, ih hxs]
    | false =>
      have hcount := countP_eq_zero_of_head hx hp
      rw [hcount]
      cases hi : (x :: xs)[i]? with
      | none => rfl
      | some y => simpa using List.countP_eq_zero.mp hcount y (List.mem_of_getElem? hi)

lemma of_mem_take_countP (h : xs.Pairwise fun x y => p y → p x) {y : α}
    (hy : y ∈ xs.take (xs.countP p)) : p y = true := by
  obtain ⟨i, hi, rfl⟩ := List.mem_take_iff_getElem.mp hy
  have hget := any_getElem?_eq h i
  rw [List.getElem?_eq_getElem (by omega)] at hget
  simpa [show i < xs.countP p by omega] using hget

lemma not_of_mem_drop_countP (h : xs.Pairwise fun x y => p y → p x) {y : α}
    (hy : y ∈ xs.drop (xs.countP p)) : p y = false := by
  obtain ⟨i, hi, rfl⟩ := List.mem_drop_iff_getElem.mp hy
  have hget := any_getElem?_eq h (xs.countP p + i)
  rw [List.getElem?_eq_getElem (by omega)] at hget
  simpa [show ¬ xs.countP p + i < xs.countP p by omega] using hget

end FirstPart

/-! ### Positions in a sorted list -/

section Keys

variable [LinearOrder β]

/-- A test says of the elements of a set whether the key of one is below the key of another. -/
def DecidedBy (before : α → α → Except ε Bool) (key : α → β) (s : Set α) : Prop :=
  ∀ x ∈ s, ∀ y ∈ s, before x y = .ok (decide (key x < key y))

def SortedBy (key : α → β) (xs : List α) : Prop :=
  xs.Pairwise fun x y => key x ≤ key y

variable {before : α → α → Except ε Bool} {key : α → β} {s : Set α} {x : α} {ys : List α}

/-- In a sorted list the elements below a key are the first ones. -/
lemma SortedBy.firstBelow (h : SortedBy key ys) :
    ys.Pairwise fun y z => decide (key z < key x) → decide (key y < key x) := by
  apply h.imp
  intro a b hle hlt
  simpa using lt_of_le_of_lt hle (of_decide_eq_true hlt)

/-- In a sorted list the elements up to a key are the first ones. -/
lemma SortedBy.firstUpTo (h : SortedBy key ys) :
    ys.Pairwise fun y z => decide (key z ≤ key x) → decide (key y ≤ key x) := by
  apply h.imp
  intro a b hle hle'
  simpa using le_trans hle (of_decide_eq_true hle')

section Parts

variable {y : α}

lemma SortedBy.lt_of_mem_take (h : SortedBy key ys)
    (hy : y ∈ ys.take (ys.countP fun y => key y < key x)) : key y < key x := by
  simpa using of_mem_take_countP h.firstBelow hy

lemma SortedBy.le_of_mem_drop (h : SortedBy key ys)
    (hy : y ∈ ys.drop (ys.countP fun y => key y < key x)) : key x ≤ key y := by
  simpa using not_of_mem_drop_countP h.firstBelow hy

lemma SortedBy.le_of_mem_take (h : SortedBy key ys)
    (hy : y ∈ ys.take (ys.countP fun y => key y ≤ key x)) : key y ≤ key x := by
  simpa using of_mem_take_countP h.firstUpTo hy

lemma SortedBy.lt_of_mem_drop (h : SortedBy key ys)
    (hy : y ∈ ys.drop (ys.countP fun y => key y ≤ key x)) : key x < key y := by
  simpa using not_of_mem_drop_countP h.firstUpTo hy

end Parts

/-- An element of a sorted list comes before another one exactly at the positions of the elements
below it. -/
lemma isBeforeAt_eq (hb : DecidedBy before key s) (hx : x ∈ s) (hys : ∀ y ∈ ys, y ∈ s)
    (h : SortedBy key ys) (i : Nat) :
    isBeforeAt before x ys i = .ok (decide (i < ys.countP fun y => key y < key x)) := by
  rw [← any_getElem?_eq h.firstBelow]
  simp only [isBeforeAt]
  cases hi : ys[i]? with
  | none => rfl
  | some y => exact hb y (hys y (List.mem_of_getElem? hi)) x hx

/-- An element does not come before that of a position exactly at the positions of the elements up
to it. -/
lemma isBehindAt_eq (hb : DecidedBy before key s) (hx : x ∈ s) (hys : ∀ y ∈ ys, y ∈ s)
    (h : SortedBy key ys) (i : Nat) :
    isBehindAt before x ys i = .ok (decide (i < ys.countP fun y => key y ≤ key x)) := by
  rw [← any_getElem?_eq h.firstUpTo]
  simp only [isBehindAt]
  cases hi : ys[i]? with
  | none => rfl
  | some y =>
    simp only [hb x hx y (hys y (List.mem_of_getElem? hi)), ok_bind, pure_eq_ok, Option.any_some,
      ← decide_not, not_lt]

end Keys

end VersionConstraints
