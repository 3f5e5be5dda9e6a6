import Mathlib.Tactic.Set
import VersionConstraints.Proofs.Sorting.Search

/-!
# Runs are sorted

Where a test compares keys, cutting a run from the front of a list does not fail. The run is sorted,
and it holds, with what is left, the elements of the list.
-/

namespace VersionConstraints

variable {ε α β : Type} [LinearOrder β] {before : α → α → Except ε Bool} {key : α → β} {s : Set α}

/-! ### Sorted lists -/

namespace SortedBy

/-- Two sorted lists are one if no element of the second goes before one of the first. -/
lemma append {xs ys : List α} (hx : SortedBy key xs) (hy : SortedBy key ys)
    (h : ∀ x ∈ xs, ∀ y ∈ ys, key x ≤ key y) : SortedBy key (xs ++ ys) :=
  List.pairwise_append.mpr ⟨hx, hy, h⟩

lemma left {xs ys : List α} (h : SortedBy key (xs ++ ys)) : SortedBy key xs :=
  (List.pairwise_append.mp h).1

lemma right {xs ys : List α} (h : SortedBy key (xs ++ ys)) : SortedBy key ys :=
  (List.pairwise_append.mp h).2.1

lemma le {xs ys : List α} (h : SortedBy key (xs ++ ys)) {x y : α} (hx : x ∈ xs) (hy : y ∈ ys) :
    key x ≤ key y :=
  (List.pairwise_append.mp h).2.2 x hx y hy

/-- What does not go behind the head of a sorted list does not go behind any of its elements. -/
lemma le_of_le_head {x y : α} {xs : List α} (h : SortedBy key (y :: xs)) (hxy : key x ≤ key y) :
    ∀ z ∈ y :: xs, key x ≤ key z := by
  intro z hz
  rcases List.mem_cons.mp hz with rfl | hz
  · exact hxy
  · exact le_trans hxy ((List.pairwise_cons.mp h).1 z hz)

lemma cons {x y : α} {xs : List α} (hxy : key x ≤ key y) (h : SortedBy key (y :: xs)) :
    SortedBy key (x :: y :: xs) :=
  List.pairwise_cons.mpr ⟨h.le_of_le_head hxy, h⟩

lemma le_getLast {x : α} {xs : List α} (h : SortedBy key xs) (hx : xs.getLast? = some x) :
    ∀ z ∈ xs, key z ≤ key x := by
  obtain ⟨ys, rfl⟩ := List.getLast?_eq_some_iff.mp hx
  intro z hz
  rcases List.mem_append.mp hz with hz | hz
  · exact h.le hz (List.mem_singleton_self x)
  · rw [List.mem_singleton.mp hz]

lemma singleton (x : α) : SortedBy key [x] := List.pairwise_singleton _ _

end SortedBy

namespace Run

/-! ### The run at the front -/

/-- A rising run is sorted behind its last element. -/
lemma rising_spec (hb : DecidedBy before key s) {last : α} {xs : List α} (hlast : last ∈ s)
    (hxs : ∀ x ∈ xs, x ∈ s) :
    Yields (rising before last xs) fun r => r.1 ++ r.2 = xs ∧ SortedBy key (last :: r.1) := by
  induction xs generalizing last with
  | nil => exact .ok ⟨rfl, SortedBy.singleton last⟩
  | cons x xs ih =>
    obtain ⟨hx, hxs⟩ := List.forall_mem_cons.mp hxs
    rw [rising, hb x hx last hlast, ok_bind]
    split
    · exact .ok ⟨rfl, SortedBy.singleton last⟩
    · next hlt =>
      apply (ih hx hxs).bind
      rintro r ⟨happ, hsorted⟩
      refine .ok ⟨by simp [happ], ?_⟩
      exact SortedBy.cons (by simpa using hlt) hsorted

/-- A falling run is sorted when it is turned round. -/
lemma falling_spec (hb : DecidedBy before key s) {last : α} {acc xs : List α} (hlast : last ∈ s)
    (hxs : ∀ x ∈ xs, x ∈ s) (hacc : SortedBy key (last :: acc)) :
    Yields (falling before last acc xs) fun r =>
      (r.1 ++ r.2).Perm (last :: acc ++ xs) ∧ SortedBy key r.1 := by
  induction xs generalizing last acc with
  | nil => exact .ok ⟨List.Perm.refl _, hacc⟩
  | cons x xs ih =>
    obtain ⟨hx, hxs⟩ := List.forall_mem_cons.mp hxs
    rw [falling, hb x hx last hlast, ok_bind]
    split
    · next hlt =>
      have hle : key x ≤ key last := le_of_lt (of_decide_eq_true hlt)
      obtain ⟨r, heq, hperm, hsorted⟩ := ih hx hxs (SortedBy.cons hle hacc)
      exact ⟨r, heq, hperm.trans List.perm_middle.symm, hsorted⟩
    · exact .ok ⟨List.Perm.refl _, hacc⟩

/-- The run at the front of a list is sorted. -/
lemma split_spec (hb : DecidedBy before key s) {xs : List α} (hxs : ∀ x ∈ xs, x ∈ s) :
    Yields (split before xs) fun r => (r.1 ++ r.2).Perm xs ∧ SortedBy key r.1 := by
  match xs, hxs with
  | [], _ => exact .ok ⟨List.Perm.refl _, List.Pairwise.nil⟩
  | [x], _ => exact .ok ⟨List.Perm.refl _, SortedBy.singleton x⟩
  | x :: y :: xs, hxs =>
    obtain ⟨hx, hxs⟩ := List.forall_mem_cons.mp hxs
    obtain ⟨hy, hxs⟩ := List.forall_mem_cons.mp hxs
    rw [split, hb y hy x hx, ok_bind]
    split
    · next hlt =>
      have hle : key y ≤ key x := le_of_lt (of_decide_eq_true hlt)
      obtain ⟨r, heq, hperm, hsorted⟩ :=
        falling_spec hb hy hxs (SortedBy.cons hle (SortedBy.singleton x))
      exact ⟨r, heq, hperm.trans (List.Perm.swap x y xs), hsorted⟩
    · next hlt =>
      apply (rising_spec hb hy hxs).bind
      rintro r ⟨happ, hsorted⟩
      refine .ok ⟨by simp [happ], ?_⟩
      exact SortedBy.cons (by simpa using hlt) hsorted

/-! ### Filling up -/

/-- Insertion keeps a run sorted. -/
lemma insert_spec (hb : DecidedBy before key s) {x : α} {run : List α} (hx : x ∈ s)
    (hrun : ∀ y ∈ run, y ∈ s) (h : SortedBy key run) :
    Yields (insert before x run) fun r => r.Perm (x :: run) ∧ SortedBy key r := by
  set k := run.countP fun y => key y ≤ key x
  have hsearch : Search.halving (isBehindAt before x run) 0 run.length = .ok k :=
    Search.halving_eq (isBehindAt_eq hb hx hrun h) (Nat.zero_le _) List.countP_le_length
  have hparts : SortedBy key (run.take k ++ run.drop k) := by rwa [List.take_append_drop]
  rw [insert, hsearch, ok_bind]
  refine .ok ⟨List.perm_middle.trans (by rw [List.take_append_drop]), hparts.left.append ?_ ?_⟩
  · exact List.pairwise_cons.mpr ⟨fun y hy => (h.lt_of_mem_drop hy).le, hparts.right⟩
  · intro y hy z hz
    rcases List.mem_cons.mp hz with rfl | hz
    · exact h.le_of_mem_take hy
    · exact hparts.le hy hz

/-- To insert several elements keeps a run sorted. -/
lemma insertAll_spec (hb : DecidedBy before key s) {run xs : List α} (hrun : ∀ y ∈ run, y ∈ s)
    (hxs : ∀ x ∈ xs, x ∈ s) (h : SortedBy key run) :
    Yields (insertAll before run xs) fun r => r.Perm (run ++ xs) ∧ SortedBy key r := by
  induction xs generalizing run with
  | nil => exact .ok ⟨by simp, h⟩
  | cons x xs ih =>
    obtain ⟨hx, hxs⟩ := List.forall_mem_cons.mp hxs
    rw [insertAll]
    apply (insert_spec hb hx hrun h).bind
    rintro run₁ ⟨hperm₁, hsorted₁⟩
    have hrun₁ : ∀ y ∈ run₁, y ∈ s := fun y hy => by
      rcases List.mem_cons.mp (hperm₁.mem_iff.mp hy) with rfl | hy
      · exact hx
      · exact hrun y hy
    obtain ⟨run₂, heq, hperm₂, hsorted₂⟩ := ih hrun₁ hxs hsorted₁
    exact ⟨run₂, heq, hperm₂.trans ((hperm₁.append_right xs).trans List.perm_middle.symm), hsorted₂⟩

/-- The next run is sorted, and nothing is lost. -/
lemma next_spec (hb : DecidedBy before key s) (least : Nat) {xs : List α} (hxs : ∀ x ∈ xs, x ∈ s) :
    Yields (next before least xs) fun r => (r.1 ++ r.2).Perm xs ∧ SortedBy key r.1 := by
  rw [next]
  apply (split_spec hb hxs).bind
  rintro ⟨run, rest⟩ ⟨hperm, hsorted⟩
  have hmem : ∀ x ∈ run ++ rest, x ∈ s := fun x hx => hxs x (hperm.mem_iff.mp hx)
  have htake : ∀ x ∈ rest.take (least - run.length), x ∈ s := fun x hx =>
    hmem x (List.mem_append_right _ (List.mem_of_mem_take hx))
  have hfill := insertAll_spec hb (fun x hx => hmem x (List.mem_append_left _ hx)) htake hsorted
  apply hfill.bind
  rintro filled ⟨hperm', hsorted'⟩
  refine .ok ⟨?_, hsorted'⟩
  refine (hperm'.append_right _).trans ?_
  rw [List.append_assoc, List.take_append_drop]
  exact hperm

end Run

end VersionConstraints
