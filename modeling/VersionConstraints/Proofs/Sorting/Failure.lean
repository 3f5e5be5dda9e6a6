import Mathlib.Data.Set.Defs
import VersionConstraints.Proofs.Sorting.Permutation

/-!
# Sorting fails only as its test fails

No step of sorting fails by itself: a fault is one that the test had for two elements of the list.
In particular sorting returns if the test does not fail on the list. Nothing else is asked of the
test, so this also covers a test that compares by no order.
-/

namespace VersionConstraints

variable {ε α : Type} {P : ε → Prop}

/-! ### Searching -/

namespace Search

variable {test : Nat → Except ε Bool} (h : ∀ i, FailsOnly (test i) P)

include h

/-- Halving fails only as its test does. -/
lemma failsOnly_halving (low high : Nat) : FailsOnly (halving test low high) P := by
  fun_induction halving test low high with
  | case1 low high hlt ih₁ ih₂ =>
    apply (h _).bind
    intro ok _
    split
    · exact ih₁
    · exact ih₂
  | case2 => exact .ok

lemma failsOnly_doubling (limit last step : Nat) :
    FailsOnly (doubling test limit last step) P := by
  fun_induction doubling test limit last step with
  | case1 last step hlt ih =>
    apply (h _).bind
    intro ok _
    split
    · exact ih
    · exact .ok
  | case2 => exact .ok

/-- Galloping fails only as its test does, at whichever position. -/
lemma failsOnly_galloping (length hint : Nat) : FailsOnly (galloping test length hint) P := by
  apply (h hint).bind
  intro ok _
  split
  · apply (failsOnly_doubling (fun s => h (hint + s)) _ _ _).bind
    intro steps _
    exact failsOnly_halving h _ _
  · apply (failsOnly_doubling (fun s => (h (hint - s)).bind fun _ _ => .ok) _ _ _).bind
    intro steps _
    exact failsOnly_halving h _ _

end Search

/-! ### Runs -/

variable {before : α → α → Except ε Bool} {S : Set α}

lemma mem_of_perm {xs ys : List α} (h : xs.Perm ys) (hys : ∀ y ∈ ys, y ∈ S) : ∀ x ∈ xs, x ∈ S :=
  fun x hx => hys x (h.mem_iff.mp hx)

section

variable (h : ∀ x ∈ S, ∀ y ∈ S, FailsOnly (before x y) P)

include h

lemma failsOnly_isBeforeAt {x : α} {ys : List α} (hx : x ∈ S) (hys : ∀ y ∈ ys, y ∈ S) (i : Nat) :
    FailsOnly (isBeforeAt before x ys i) P := by
  rw [isBeforeAt]
  split
  · exact .ok
  · next y hy => exact h y (hys y (List.mem_of_getElem? hy)) x hx

lemma failsOnly_isBehindAt {x : α} {ys : List α} (hx : x ∈ S) (hys : ∀ y ∈ ys, y ∈ S) (i : Nat) :
    FailsOnly (isBehindAt before x ys i) P := by
  rw [isBehindAt]
  split
  · exact .ok
  · next y hy => exact (h x hx y (hys y (List.mem_of_getElem? hy))).bind fun _ _ => .ok

namespace Run

variable {least threshold : Nat} {x last : α} {xs ys run left right : List α}

lemma failsOnly_rising (hlast : last ∈ S) (hxs : ∀ x ∈ xs, x ∈ S) :
    FailsOnly (rising before last xs) P := by
  induction xs generalizing last with
  | nil => exact .ok
  | cons x xs ih =>
    obtain ⟨hx, hxs⟩ := List.forall_mem_cons.mp hxs
    apply (h x hx last hlast).bind
    intro ok _
    split
    · exact .ok
    · exact (ih hx hxs).bind fun _ _ => .ok

lemma failsOnly_falling (hlast : last ∈ S) (hxs : ∀ x ∈ xs, x ∈ S) :
    FailsOnly (falling before last ys xs) P := by
  induction xs generalizing last ys with
  | nil => exact .ok
  | cons x xs ih =>
    obtain ⟨hx, hxs⟩ := List.forall_mem_cons.mp hxs
    apply (h x hx last hlast).bind
    intro ok _
    split
    · exact ih hx hxs
    · exact .ok

/-- To split off a run fails only as the test does on elements of the list. -/
lemma failsOnly_split (hxs : ∀ x ∈ xs, x ∈ S) : FailsOnly (split before xs) P := by
  unfold split
  split
  · next x y xs =>
    obtain ⟨hx, hys⟩ := List.forall_mem_cons.mp hxs
    obtain ⟨hy, hxs⟩ := List.forall_mem_cons.mp hys
    apply (h y hy x hx).bind
    intro ok _
    split
    · exact failsOnly_falling h hy hxs
    · exact (failsOnly_rising h hy hxs).bind fun _ _ => .ok
  · exact .ok

lemma failsOnly_insert (hx : x ∈ S) (hrun : ∀ y ∈ run, y ∈ S) :
    FailsOnly (insert before x run) P :=
  (Search.failsOnly_halving (failsOnly_isBehindAt h hx hrun) _ _).bind fun _ _ => .ok

/-- To insert elements fails only as the test does on them and those of the run. -/
lemma failsOnly_insertAll (hrun : ∀ y ∈ run, y ∈ S) (hxs : ∀ x ∈ xs, x ∈ S) :
    FailsOnly (insertAll before run xs) P := by
  induction xs generalizing run with
  | nil => exact .ok
  | cons x xs ih =>
    obtain ⟨hx, hxs⟩ := List.forall_mem_cons.mp hxs
    apply (failsOnly_insert h hx hrun).bind
    intro run' hrun'
    exact ih (mem_of_perm (perm_of_insert hrun') (List.forall_mem_cons.mpr ⟨hx, hrun⟩)) hxs

lemma failsOnly_next (hxs : ∀ x ∈ xs, x ∈ S) : FailsOnly (next before least xs) P := by
  apply (failsOnly_split h hxs).bind
  rintro ⟨run, rest⟩ hsplit
  obtain ⟨hrun, hrest⟩ := List.forall_mem_append.mp (mem_of_perm (perm_of_split hsplit) hxs)
  have htake : ∀ x ∈ rest.take (least - run.length), x ∈ S := fun x hx =>
    hrest x (List.mem_of_mem_take hx)
  exact (failsOnly_insertAll h hrun htake).bind fun _ _ => .ok

end Run

end

/-! ### Merges -/

namespace Direction

variable {d : Direction ε α} {m : Merge α} {threshold : Nat}

/-- Whether the tests of a direction fail only with a property on elements of a set. -/
structure FailsOnly (d : Direction ε α) (S : Set α) (P : ε → Prop) : Prop where
  secondGoesFirst : ∀ x ∈ S, ∀ y ∈ S, VersionConstraints.FailsOnly (d.secondGoesFirst x y) P
  firstStretch : ∀ xs : List α, (∀ x ∈ xs, x ∈ S) → ∀ y ∈ S,
    VersionConstraints.FailsOnly (d.firstStretch xs y) P
  secondStretch : ∀ ys : List α, (∀ y ∈ ys, y ∈ S) → ∀ x ∈ S,
    VersionConstraints.FailsOnly (d.secondStretch ys x) P

section

variable (h : ∀ x ∈ S, ∀ y ∈ S, VersionConstraints.FailsOnly (before x y) P)

include h

/-- A merge from the front asks the test for elements of both runs only. -/
lemma forward_failsOnly : (forward before).FailsOnly S P where
  secondGoesFirst x hx y hy := h y hy x hx
  firstStretch _ hxs _ hy := Search.failsOnly_galloping (failsOnly_isBehindAt h hy hxs) _ _
  secondStretch _ hys _ hx := Search.failsOnly_galloping (failsOnly_isBeforeAt h hx hys) _ _

/-- A merge from the back asks the test for elements of both runs only. -/
lemma backward_failsOnly : (backward before).FailsOnly S P where
  secondGoesFirst x hx y hy := h x hx y hy
  firstStretch _ hxs _ hy :=
    (Search.failsOnly_galloping (failsOnly_isBeforeAt h hy (by simpa using hxs)) _ _).bind
      fun _ _ => .ok
  secondStretch _ hys _ hx :=
    (Search.failsOnly_galloping (failsOnly_isBehindAt h hx (by simpa using hys)) _ _).bind
      fun _ _ => .ok

end

namespace FailsOnly

variable (hd : d.FailsOnly S P)

include hd

lemma takeSingles {i j : Nat} (hm : ∀ x ∈ m.elements, x ∈ S) :
    VersionConstraints.FailsOnly (d.takeSingles threshold i j m) P := by
  fun_induction Direction.takeSingles d threshold i j m with
  | case1 i j merged x x' xs y ys ih₁ ih₂ =>
    have hsecond : (Merge.elements ⟨merged ++ [y], x :: x' :: xs, ys⟩).Perm
        (Merge.elements ⟨merged, x :: x' :: xs, y :: ys⟩) := Merge.elements_takeSecond
    have hfirst : (Merge.elements ⟨merged ++ [x], x' :: xs, y :: ys⟩) =
        (Merge.elements ⟨merged, x :: x' :: xs, y :: ys⟩) := Merge.elements_takeFirst
    have hx : x ∈ S := hm x (by simp [Merge.elements])
    have hy : y ∈ S := hm y (by simp [Merge.elements])
    apply (hd.secondGoesFirst x hx y hy).bind
    intro ok _
    split
    · split
      · exact .ok
      · exact ih₁ (mem_of_perm hsecond hm)
    · split
      · exact .ok
      · exact ih₂ (hfirst ▸ hm)
  | case2 => exact .ok

lemma takeFirstStretch (hm : ∀ x ∈ m.elements, x ∈ S) :
    VersionConstraints.FailsOnly (d.takeFirstStretch m) P := by
  unfold Direction.takeFirstStretch
  split
  · next merged x x' xs y ys =>
    have hxs : ∀ z ∈ x :: x' :: xs, z ∈ S := fun z hz =>
      hm z (List.mem_append_left _ (List.mem_append_right _ hz))
    have hy : y ∈ S := hm y (by simp [Merge.elements])
    apply (hd.firstStretch _ hxs y hy).bind
    intro n _
    dsimp only
    split
    · exact .ok
    · exact .ok
  · exact .ok

lemma takeSecondStretch (hm : ∀ x ∈ m.elements, x ∈ S) :
    VersionConstraints.FailsOnly (d.takeSecondStretch m) P := by
  unfold Direction.takeSecondStretch
  split
  · next merged x x' xs y ys =>
    have hys : ∀ z ∈ y :: ys, z ∈ S := fun z hz => hm z (List.mem_append_right _ hz)
    have hx : x ∈ S := hm x (by simp [Merge.elements])
    apply (hd.secondStretch _ hys x hx).bind
    intro n _
    dsimp only
    split
    · exact .ok
    · exact .ok
  · exact .ok

lemma takeStretches (hm : ∀ x ∈ m.elements, x ∈ S) :
    VersionConstraints.FailsOnly (d.takeStretches m) P := by
  unfold Direction.takeStretches
  split
  · apply (hd.takeFirstStretch hm).bind
    rintro ⟨m₁, i⟩ h₁
    exact (hd.takeSecondStretch (mem_of_perm (elements_of_takeFirstStretch h₁) hm)).bind
      fun _ _ => .ok
  · apply (hd.takeSecondStretch hm).bind
    rintro ⟨m₁, j⟩ h₁
    exact (hd.takeFirstStretch (mem_of_perm (elements_of_takeSecondStretch h₁) hm)).bind
      fun _ _ => .ok

/-- Rounds of galloping keep to the elements of the merge, so their faults are faults of the test on
these. -/
lemma gallop (hm : ∀ x ∈ m.elements, x ∈ S) :
    VersionConstraints.FailsOnly (d.gallop threshold m) P := by
  fun_induction Direction.gallop d threshold m with
  | case1 => exact .ok
  | case2 threshold m hsettled e hstep => exact .error (hd.takeStretches hm e hstep)
  | case3 threshold m hsettled m' long hstep hlong ih =>
    exact ih (mem_of_perm (elements_of_takeStretches hstep) hm)
  | case4 => exact .ok

lemma finish (hm : ∀ x ∈ m.elements, x ∈ S) :
    VersionConstraints.FailsOnly (d.finish threshold m) P := by
  fun_induction Direction.finish d threshold m with
  | case1 => exact .ok
  | case2 threshold m hsettled e h₁ => exact .error (hd.takeSingles hm e h₁)
  | case3 => exact .ok
  | case4 threshold m hsettled m₁ h₁ hm₁ e h₂ =>
    exact .error (hd.gallop (mem_of_perm (elements_of_takeSingles h₁) hm) e h₂)
  | case5 => exact .ok
  | case6 threshold m hsettled m₁ h₁ hm₁ m₂ threshold₂ h₂ hm₂ ih =>
    exact ih (mem_of_perm ((elements_of_gallop h₂).trans (elements_of_takeSingles h₁)) hm)

end FailsOnly

end Direction

/-! ### Sorting -/

section

variable (h : ∀ x ∈ S, ∀ y ∈ S, FailsOnly (before x y) P)

include h

namespace Run

variable {threshold : Nat} {left right : List α}

lemma failsOnly_mergeOverlapping (hleft : ∀ x ∈ left, x ∈ S) (hright : ∀ x ∈ right, x ∈ S) :
    FailsOnly (mergeOverlapping before threshold left right) P := by
  unfold mergeOverlapping
  split
  · refine (Direction.forward_failsOnly h).finish ?_
    refine List.forall_mem_append.mpr ⟨List.forall_mem_append.mpr ⟨?_, hleft⟩, ?_⟩
    · exact fun x hx => hright x (List.mem_of_mem_take hx)
    · exact fun x hx => hright x (List.mem_of_mem_drop hx)
  · refine ((Direction.backward_failsOnly h).finish ?_).bind fun _ _ => .ok
    refine List.forall_mem_append.mpr ⟨List.forall_mem_append.mpr ⟨?_, ?_⟩, ?_⟩
    · exact fun x hx => hleft x (List.mem_reverse.mp (List.mem_of_mem_take hx))
    · exact fun x hx => hright x (List.mem_reverse.mp hx)
    · exact fun x hx => hleft x (List.mem_reverse.mp (List.mem_of_mem_drop hx))

/-- To merge two runs fails only as the test does on their elements. -/
lemma failsOnly_merge (hleft : ∀ x ∈ left, x ∈ S) (hright : ∀ x ∈ right, x ∈ S) :
    FailsOnly (merge before threshold left right) P := by
  unfold merge
  split
  · exact .ok
  · next y ys =>
    have hy : y ∈ S := hright y List.mem_cons_self
    apply (Search.failsOnly_galloping (failsOnly_isBehindAt h hy hleft) _ _).bind
    intro i _
    split
    · exact .ok
    · next x hlast =>
      have hx : x ∈ S := hleft x (List.mem_of_mem_drop (List.mem_of_getLast? hlast))
      apply (Search.failsOnly_galloping (failsOnly_isBeforeAt h hx hright) _ _).bind
      intro j _
      dsimp only
      split
      · exact .ok
      · refine (failsOnly_mergeOverlapping h ?_ ?_).bind fun _ _ => .ok
        · exact fun x hx => hleft x (List.mem_of_mem_drop hx)
        · exact fun x hx => hright x (List.mem_of_mem_take hx)

end Run

namespace Sorting

variable {least threshold : Nat} {runs : List (List α)} {xs : List α}

omit h in
lemma forall_mem_two {y z : List α} {rest : List (List α)}
    (hruns : ∀ a ∈ (z :: y :: rest).flatten, a ∈ S) : (∀ a ∈ z, a ∈ S) ∧ ∀ a ∈ y, a ∈ S := by
  simp only [List.flatten_cons, List.forall_mem_append] at hruns
  exact ⟨hruns.1, hruns.2.1⟩

omit h in
lemma forall_mem_three {x y z : List α} {rest : List (List α)}
    (hruns : ∀ a ∈ (z :: y :: x :: rest).flatten, a ∈ S) :
    (∀ a ∈ z, a ∈ S) ∧ (∀ a ∈ y, a ∈ S) ∧ ∀ a ∈ x, a ∈ S := by
  simp only [List.flatten_cons, List.forall_mem_append] at hruns
  exact ⟨hruns.1, hruns.2.1, hruns.2.2.1⟩

/-- To merge crowded runs fails only as the test does on their elements. -/
lemma failsOnly_mergeCrowded (hruns : ∀ x ∈ runs.flatten, x ∈ S) :
    FailsOnly (mergeCrowded before threshold runs) P := by
  fun_induction mergeCrowded before threshold runs with
  | case1 threshold z y x rest hshorter ih =>
    obtain ⟨-, hy, hx⟩ := forall_mem_three hruns
    apply (Run.failsOnly_merge h hx hy).bind
    rintro ⟨xy, t⟩ hmerge
    exact ih xy t (mem_of_perm ((perm_of_merge hmerge rest).append_left z) hruns)
  | case2 threshold z y x rest hshorter hcrowded ih =>
    obtain ⟨hz, hy, -⟩ := forall_mem_three hruns
    apply (Run.failsOnly_merge h hy hz).bind
    rintro ⟨yz, t⟩ hmerge
    exact ih yz t (mem_of_perm (perm_of_merge hmerge (x :: rest)) hruns)
  | case4 threshold z y hle =>
    obtain ⟨hz, hy⟩ := forall_mem_two hruns
    exact (Run.failsOnly_merge h hy hz).bind fun _ _ => .ok
  | case3 | case5 | case6 => exact .ok

lemma failsOnly_mergeAll (hruns : ∀ x ∈ runs.flatten, x ∈ S) :
    FailsOnly (mergeAll before threshold runs) P := by
  fun_induction mergeAll before threshold runs with
  | case1 threshold z y x rest hshorter ih =>
    obtain ⟨-, hy, hx⟩ := forall_mem_three hruns
    apply (Run.failsOnly_merge h hx hy).bind
    rintro ⟨xy, t⟩ hmerge
    exact ih xy t (mem_of_perm ((perm_of_merge hmerge rest).append_left z) hruns)
  | case2 threshold z y x rest hshorter ih =>
    obtain ⟨hz, hy, -⟩ := forall_mem_three hruns
    apply (Run.failsOnly_merge h hy hz).bind
    rintro ⟨yz, t⟩ hmerge
    exact ih yz t (mem_of_perm (perm_of_merge hmerge (x :: rest)) hruns)
  | case3 threshold z y =>
    obtain ⟨hz, hy⟩ := forall_mem_two hruns
    exact (Run.failsOnly_merge h hy hz).bind fun _ _ => .ok
  | case4 | case5 => exact .ok

/-- Sorting behind pending runs fails only as the test does on elements of the runs and the list. -/
lemma failsOnly_sortFrom (hruns : ∀ x ∈ runs.flatten, x ∈ S) (hxs : ∀ x ∈ xs, x ∈ S) :
    FailsOnly (sortFrom before least threshold runs xs) P := by
  fun_induction sortFrom before least threshold runs xs with
  | case1 threshold runs => exact failsOnly_mergeAll h hruns
  | case2 threshold runs x xs e hnext => exact .error (Run.failsOnly_next h hxs e hnext)
  | case3 threshold runs x xs run rest hnext ih =>
    obtain ⟨hrun, hrest⟩ := List.forall_mem_append.mp (mem_of_perm (Run.perm_of_next hnext) hxs)
    have hall : ∀ x ∈ (run :: runs).flatten, x ∈ S :=
      List.forall_mem_append.mpr ⟨hrun, hruns⟩
    apply (failsOnly_mergeCrowded h hall).bind
    rintro ⟨runs', t⟩ hcrowded
    exact ih runs' t (mem_of_perm (perm_of_mergeCrowded hcrowded) hall) hrest

end Sorting

end

/-- A fault of sorting is one that the test had for two elements of the list. -/
theorem Sorting.exists_of_sort_eq_error {xs : List α} {e : ε} (h : sort before xs = .error e) :
    ∃ x ∈ xs, ∃ y ∈ xs, before x y = .error e := by
  have htest : ∀ x ∈ { x | x ∈ xs }, ∀ y ∈ { x | x ∈ xs },
      FailsOnly (before x y) fun e => ∃ x ∈ xs, ∃ y ∈ xs, before x y = .error e :=
    fun x hx y hy e he => ⟨x, hx, y, hy, he⟩
  exact failsOnly_sortFrom htest (by simp) (fun _ hx => hx) e h

end VersionConstraints
