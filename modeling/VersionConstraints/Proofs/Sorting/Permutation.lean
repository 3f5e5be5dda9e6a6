import VersionConstraints.Proofs.Sorting.Sort

/-!
# Sorting permutes

Whatever the test says, as long as it does not fail, sorting neither drops nor repeats an element.
Nothing is asked of the test: where it compares by no order, the answer is still a permutation, of
which then nothing more is known.
-/

namespace VersionConstraints

variable {ε α : Type} {before : α → α → Except ε Bool}

/-! ### Runs -/

namespace Run

variable {least : Nat} {x last : α} {xs ys run rest : List α}

/-- A rising run stays where it is. -/
lemma append_eq_of_rising (h : rising before last xs = .ok (run, rest)) : run ++ rest = xs := by
  induction xs generalizing last run rest with
  | nil =>
    cases h
    rfl
  | cons x xs ih =>
    obtain ⟨b, -, h⟩ := bind_eq_ok.mp h
    split at h
    · cases h
      rfl
    · obtain ⟨⟨run', rest'⟩, hrec, h⟩ := bind_eq_ok.mp h
      cases h
      rw [List.cons_append, ih hrec]

/-- A falling run keeps its elements when it is turned round. -/
lemma perm_of_falling (h : falling before last ys xs = .ok (run, rest)) :
    (run ++ rest).Perm (last :: ys ++ xs) := by
  induction xs generalizing last ys with
  | nil =>
    cases h
    exact List.Perm.refl _
  | cons x xs ih =>
    obtain ⟨b, -, h⟩ := bind_eq_ok.mp h
    split at h
    · exact (ih h).trans List.perm_middle.symm
    · cases h
      exact List.Perm.refl _

lemma perm_of_split (h : split before xs = .ok (run, rest)) : (run ++ rest).Perm xs := by
  unfold split at h
  split at h
  · next x y xs =>
    obtain ⟨b, -, h⟩ := bind_eq_ok.mp h
    split at h
    · exact (perm_of_falling h).trans (List.Perm.swap x y xs)
    · obtain ⟨⟨run', rest'⟩, hrec, h⟩ := bind_eq_ok.mp h
      cases h
      rw [List.cons_append, List.cons_append, append_eq_of_rising hrec]
  · cases h
    rw [List.append_nil]

/-- Insertion adds one element. -/
lemma perm_of_insert (h : insert before x run = .ok ys) : ys.Perm (x :: run) := by
  obtain ⟨i, -, h⟩ := bind_eq_ok.mp h
  cases h
  exact List.perm_middle.trans (by rw [List.take_append_drop])

lemma perm_of_insertAll (h : insertAll before run xs = .ok ys) : ys.Perm (run ++ xs) := by
  induction xs generalizing run with
  | nil =>
    cases h
    rw [List.append_nil]
  | cons x xs ih =>
    obtain ⟨run', hinsert, h⟩ := bind_eq_ok.mp h
    exact (ih h).trans (((perm_of_insert hinsert).append_right xs).trans List.perm_middle.symm)

lemma perm_of_next (h : next before least xs = .ok (run, rest)) : (run ++ rest).Perm xs := by
  obtain ⟨⟨run', rest'⟩, hsplit, h⟩ := bind_eq_ok.mp h
  obtain ⟨filled, hfill, h⟩ := bind_eq_ok.mp h
  cases h
  refine ((perm_of_insertAll hfill).append_right _).trans ?_
  rw [List.append_assoc, List.take_append_drop]
  exact perm_of_split hsplit

end Run

/-! ### Merges -/

namespace Merge

def elements (m : Merge α) : List α :=
  m.merged ++ m.first ++ m.second

variable {merged xs ys zs : List α}

/-- Elements that the first list gives stay elements of the merge. -/
lemma elements_takeFirst :
    elements ⟨merged ++ zs, xs, ys⟩ = elements ⟨merged, zs ++ xs, ys⟩ := by
  simp [elements]

lemma elements_takeSecond :
    (elements ⟨merged ++ zs, xs, ys⟩).Perm (elements ⟨merged, xs, zs ++ ys⟩) := by
  simp only [elements, List.append_assoc]
  refine List.Perm.append_left _ ?_
  rw [← List.append_assoc, ← List.append_assoc]
  exact List.perm_append_comm.append_right ys

/-- A result has all elements of the merge. -/
lemma result_perm_elements (m : Merge α) : m.result.Perm m.elements := by
  simp only [result, elements, List.append_assoc]
  exact List.perm_append_comm.append_left _

end Merge

namespace Direction

open Merge

variable {d : Direction ε α} {m m' : Merge α} {n threshold threshold' : Nat} {long : Bool}
  {ys : List α}

lemma elements_of_takeSingles {i j : Nat} (h : d.takeSingles threshold i j m = .ok m') :
    m'.elements.Perm m.elements := by
  fun_induction takeSingles d threshold i j m with
  | case1 i j merged x x' xs y ys ih₁ ih₂ =>
    have hsecond : (elements ⟨merged ++ [y], x :: x' :: xs, ys⟩).Perm
        (elements ⟨merged, x :: x' :: xs, y :: ys⟩) := elements_takeSecond
    have hfirst : (elements ⟨merged ++ [x], x' :: xs, y :: ys⟩) =
        (elements ⟨merged, x :: x' :: xs, y :: ys⟩) := elements_takeFirst
    obtain ⟨b, -, h⟩ := bind_eq_ok.mp h
    split at h
    · split at h
      · cases h
        exact hsecond
      · exact (ih₁ h).trans hsecond
    · split at h
      · cases h
        rw [hfirst]
      · exact hfirst ▸ ih₂ h
  | case2 =>
    cases h
    exact List.Perm.refl _

lemma elements_of_takeFirstStretch (h : d.takeFirstStretch m = .ok (m', n)) :
    m'.elements.Perm m.elements := by
  unfold takeFirstStretch at h
  split at h
  · next merged x x' xs y ys =>
    obtain ⟨k, -, h⟩ := bind_eq_ok.mp h
    have htaken : elements ⟨merged ++ (x :: x' :: xs).take k, (x :: x' :: xs).drop k, y :: ys⟩ =
        elements ⟨merged, x :: x' :: xs, y :: ys⟩ := by
      rw [elements_takeFirst, List.take_append_drop]
    dsimp only at h
    split at h
    · cases h
      rw [htaken]
    · cases h
      rw [← htaken]
      exact elements_takeSecond
  · cases h
    exact List.Perm.refl _

lemma elements_of_takeSecondStretch (h : d.takeSecondStretch m = .ok (m', n)) :
    m'.elements.Perm m.elements := by
  unfold takeSecondStretch at h
  split at h
  · next merged x x' xs y ys =>
    obtain ⟨k, -, h⟩ := bind_eq_ok.mp h
    have htaken : (elements ⟨merged ++ (y :: ys).take k, x :: x' :: xs, (y :: ys).drop k⟩).Perm
        (elements ⟨merged, x :: x' :: xs, y :: ys⟩) := by
      refine elements_takeSecond.trans ?_
      rw [List.take_append_drop]
    dsimp only at h
    split at h
    · cases h
      exact htaken
    · cases h
      refine List.Perm.trans ?_ htaken
      rw [elements_takeFirst]
      exact List.Perm.refl _
  · cases h
    exact List.Perm.refl _

lemma elements_of_takeStretches (h : d.takeStretches m = .ok (m', long)) :
    m'.elements.Perm m.elements := by
  unfold takeStretches at h
  split at h
  · obtain ⟨⟨m₁, i⟩, h₁, h⟩ := bind_eq_ok.mp h
    obtain ⟨⟨m₂, j⟩, h₂, h⟩ := bind_eq_ok.mp h
    cases h
    exact (elements_of_takeSecondStretch h₂).trans (elements_of_takeFirstStretch h₁)
  · obtain ⟨⟨m₁, i⟩, h₁, h⟩ := bind_eq_ok.mp h
    obtain ⟨⟨m₂, j⟩, h₂, h⟩ := bind_eq_ok.mp h
    cases h
    exact (elements_of_takeFirstStretch h₂).trans (elements_of_takeSecondStretch h₁)

lemma elements_of_gallop (h : d.gallop threshold m = .ok (m', threshold')) :
    m'.elements.Perm m.elements := by
  fun_induction gallop d threshold m with
  | case1 =>
    cases h
    exact List.Perm.refl _
  | case2 => cases h
  | case3 threshold m hm m' long hstep hlong ih =>
    exact (ih h).trans (elements_of_takeStretches hstep)
  | case4 threshold m hm m' long hstep hlong =>
    cases h
    exact elements_of_takeStretches hstep

lemma perm_of_finish (h : d.finish threshold m = .ok (ys, threshold')) : ys.Perm m.elements := by
  fun_induction finish d threshold m with
  | case1 threshold m hm =>
    cases h
    exact m.result_perm_elements
  | case2 => cases h
  | case3 threshold m hm m₁ h₁ hm₁ =>
    cases h
    exact m₁.result_perm_elements.trans (elements_of_takeSingles h₁)
  | case4 => cases h
  | case5 threshold m hm m₁ h₁ hm₁ m₂ threshold₂ h₂ hm₂ =>
    cases h
    exact m₂.result_perm_elements.trans
      ((elements_of_gallop h₂).trans (elements_of_takeSingles h₁))
  | case6 threshold m hm m₁ h₁ hm₁ m₂ threshold₂ h₂ hm₂ ih =>
    exact (ih h).trans ((elements_of_gallop h₂).trans (elements_of_takeSingles h₁))

end Direction

namespace Run

variable {threshold threshold' : Nat} {left right ys : List α}

lemma perm_of_mergeOverlapping
    (h : mergeOverlapping before threshold left right = .ok (ys, threshold')) :
    ys.Perm (left ++ right) := by
  have hstart (xs zs : List α) : (Merge.elements ⟨xs.take 1, zs, xs.drop 1⟩).Perm (zs ++ xs) := by
    have hfirst : (Merge.elements ⟨[] ++ xs.take 1, zs, xs.drop 1⟩).Perm
        (Merge.elements ⟨[], zs, xs.take 1 ++ xs.drop 1⟩) := Merge.elements_takeSecond
    rw [List.take_append_drop] at hfirst
    exact hfirst
  unfold mergeOverlapping at h
  split at h
  · exact (Direction.perm_of_finish h).trans (hstart right left)
  · obtain ⟨⟨xs, threshold₁⟩, hfinish, h⟩ := bind_eq_ok.mp h
    cases h
    refine (List.reverse_perm xs).trans ((Direction.perm_of_finish hfinish).trans ?_)
    refine (hstart left.reverse right.reverse).trans ?_
    rw [← List.reverse_append]
    exact List.reverse_perm _

/-- To merge two runs keeps their elements. -/
lemma perm_of_merge (h : merge before threshold left right = .ok (ys, threshold')) :
    ys.Perm (left ++ right) := by
  unfold merge at h
  split at h
  · cases h
    rw [List.append_nil]
  · next y zs =>
    obtain ⟨i, -, h⟩ := bind_eq_ok.mp h
    split at h
    · cases h
      exact List.Perm.refl _
    · next x _ =>
      obtain ⟨j, -, h⟩ := bind_eq_ok.mp h
      split at h
      · cases h
        exact List.Perm.refl _
      · obtain ⟨⟨merged, threshold₁⟩, hmerge, h⟩ := bind_eq_ok.mp h
        cases h
        have hmiddle := (perm_of_mergeOverlapping hmerge).append_left (left.take i)
        refine (hmiddle.append_right _).trans ?_
        rw [← List.append_assoc, List.take_append_drop, List.append_assoc, List.take_append_drop]

end Run

/-! ### Sorting -/

namespace Sorting

variable {least threshold threshold' : Nat} {runs runs' : List (List α)} {x y z xs ys : List α}

/-- The last two runs can be replaced by their merge. -/
lemma perm_of_merge (h : Run.merge before threshold x y = .ok (z, threshold'))
    (rest : List (List α)) : (z :: rest).flatten.Perm (y :: x :: rest).flatten := by
  rw [List.flatten_cons, List.flatten_cons, List.flatten_cons, ← List.append_assoc]
  exact ((Run.perm_of_merge h).trans List.perm_append_comm).append_right _

/-- To merge crowded runs keeps their elements. -/
lemma perm_of_mergeCrowded (h : mergeCrowded before threshold runs = .ok (runs', threshold')) :
    runs'.flatten.Perm runs.flatten := by
  fun_induction mergeCrowded before threshold runs with
  | case1 threshold z y x rest hshorter ih =>
    obtain ⟨⟨xy, t⟩, hmerge, h⟩ := bind_eq_ok.mp h
    exact (ih xy t h).trans ((perm_of_merge hmerge rest).append_left z)
  | case2 threshold z y x rest hshorter hcrowded ih =>
    obtain ⟨⟨yz, t⟩, hmerge, h⟩ := bind_eq_ok.mp h
    exact (ih yz t h).trans (perm_of_merge hmerge (x :: rest))
  | case4 threshold z y hle =>
    obtain ⟨⟨yz, t⟩, hmerge, h⟩ := bind_eq_ok.mp h
    cases h
    exact perm_of_merge hmerge []
  | case3 | case5 | case6 =>
    cases h
    exact List.Perm.refl _

lemma perm_of_mergeAll (h : mergeAll before threshold runs = .ok ys) : ys.Perm runs.flatten := by
  fun_induction mergeAll before threshold runs with
  | case1 threshold z y x rest hshorter ih =>
    obtain ⟨⟨xy, t⟩, hmerge, h⟩ := bind_eq_ok.mp h
    exact (ih xy t h).trans ((perm_of_merge hmerge rest).append_left z)
  | case2 threshold z y x rest hshorter ih =>
    obtain ⟨⟨yz, t⟩, hmerge, h⟩ := bind_eq_ok.mp h
    exact (ih yz t h).trans (perm_of_merge hmerge (x :: rest))
  | case3 threshold z y =>
    obtain ⟨⟨yz, t⟩, hmerge, h⟩ := bind_eq_ok.mp h
    cases h
    have hperm := perm_of_merge hmerge []
    rwa [List.flatten_singleton] at hperm
  | case4 threshold z =>
    cases h
    rw [List.flatten_singleton]
  | case5 =>
    cases h
    exact List.Perm.refl _

/-- Sorting behind pending runs keeps the elements of the runs and the list. -/
lemma perm_of_sortFrom (h : sortFrom before least threshold runs xs = .ok ys) :
    ys.Perm (runs.flatten ++ xs) := by
  fun_induction sortFrom before least threshold runs xs with
  | case1 threshold runs =>
    rw [List.append_nil]
    exact perm_of_mergeAll h
  | case2 => cases h
  | case3 threshold runs x xs run rest hnext ih =>
    obtain ⟨⟨runs', t⟩, hcrowded, h⟩ := bind_eq_ok.mp h
    refine (ih runs' t h).trans ?_
    calc (runs'.flatten ++ rest).Perm (run ++ runs.flatten ++ rest) :=
          (perm_of_mergeCrowded hcrowded).append_right _
      _ |>.Perm (runs.flatten ++ run ++ rest) := List.perm_append_comm.append_right _
      _ |>.Perm (runs.flatten ++ (x :: xs)) := by
          rw [List.append_assoc]
          exact (Run.perm_of_next hnext).append_left _

/-- What a list is sorted to is a permutation of it. -/
theorem perm_of_sort (h : sort before xs = .ok ys) : ys.Perm xs :=
  perm_of_sortFrom h

end Sorting

end VersionConstraints
