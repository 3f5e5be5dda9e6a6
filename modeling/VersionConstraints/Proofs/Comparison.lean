import Mathlib.Data.Set.Defs
import Mathlib.Order.Compare
import Mathlib.Order.Lattice
import VersionConstraints.Proofs.Outcome

/-!
# Comparisons

A comparison may fail, and its answers need not fit together. Where it compares keys from a linear
order it does neither: on the values with such a key it is a total preorder, and those compare as
equal that have one key.
-/

namespace VersionConstraints

variable {ε α β : Type} {cmp : α → α → Except ε Ordering} {x y : α}

/-- Whether a comparison tells that a value does not come after another one. -/
def NotAfter (cmp : α → α → Except ε Ordering) (x y : α) : Prop :=
  Yields (cmp x y) (· ≠ .gt)

/-- A comparison does not fail on the values of a set, and it is a total preorder of them: each value
is equal to itself, to exchange two values turns the answer round, of two values one does not come
after the other, and this passes from one pair to the next. The values that compare as equal are
those that agree. -/
structure TotalPreorder (cmp : α → α → Except ε Ordering) (s : Set α)
    (Agree : α → α → Prop) : Prop where
  refl : ∀ x ∈ s, cmp x x = .ok .eq
  swap : ∀ x ∈ s, ∀ y ∈ s, ∃ o, cmp x y = .ok o ∧ cmp y x = .ok o.swap
  total : ∀ x ∈ s, ∀ y ∈ s, NotAfter cmp x y ∨ NotAfter cmp y x
  trans : ∀ x ∈ s, ∀ y ∈ s, ∀ z ∈ s,
    NotAfter cmp x y → NotAfter cmp y z → NotAfter cmp x z
  eq_iff : ∀ x ∈ s, ∀ y ∈ s, (cmp x y = .ok .eq ↔ Agree x y)

variable [LinearOrder β] {key : α → β} {s : Set α}

/-- A comparison of the values of a set compares their keys. -/
def ComparedBy (cmp : α → α → Except ε Ordering) (key : α → β) (s : Set α) : Prop :=
  ∀ x ∈ s, ∀ y ∈ s, Yields (cmp x y) fun o => o.Compares (key x) (key y)

namespace ComparedBy

/-- The answer of a comparison is the one that its keys have. -/
lemma eq_ok_iff (h : ComparedBy cmp key s) (hx : x ∈ s) (hy : y ∈ s) {o : Ordering} :
    cmp x y = .ok o ↔ o.Compares (key x) (key y) := by
  obtain ⟨o', ho', hcompares⟩ := h x hx y hy
  rw [ho', Except.ok.injEq]
  exact ⟨fun heq => heq ▸ hcompares, fun ho => hcompares.inj ho⟩

lemma notAfter_iff (h : ComparedBy cmp key s) (hx : x ∈ s) (hy : y ∈ s) :
    NotAfter cmp x y ↔ key x ≤ key y := by
  obtain ⟨o, ho, hcompares⟩ := h x hx y hy
  rw [← hcompares.ne_gt]
  exact ⟨fun hyields => hyields.of_eq_ok ho, fun hne => ⟨o, ho, hne⟩⟩

/-- To compare keys is to be a total preorder. -/
theorem totalPreorder (h : ComparedBy cmp key s) {Agree : α → α → Prop}
    (hkey : ∀ x ∈ s, ∀ y ∈ s, (key x = key y ↔ Agree x y)) : TotalPreorder cmp s Agree where
  refl x hx := (h.eq_ok_iff hx hx).mpr rfl
  swap x hx y hy := by
    obtain ⟨o, ho, hcompares⟩ := h x hx y hy
    exact ⟨o, ho, (h.eq_ok_iff hy hx).mpr (Ordering.compares_swap.mpr hcompares)⟩
  total x hx y hy := by
    rw [h.notAfter_iff hx hy, h.notAfter_iff hy hx]
    exact le_total _ _
  trans x hx y hy z hz hxy hyz := by
    rw [h.notAfter_iff hx hy] at hxy
    rw [h.notAfter_iff hy hz] at hyz
    exact (h.notAfter_iff hx hz).mpr (hxy.trans hyz)
  eq_iff x hx y hy := (h.eq_ok_iff hx hy).trans (hkey x hx y hy)

end ComparedBy

end VersionConstraints
