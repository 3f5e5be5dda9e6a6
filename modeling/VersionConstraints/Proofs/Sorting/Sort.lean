import VersionConstraints.Order.Sort
import VersionConstraints.Proofs.Sorting.Merge

/-!
# Sorting sorts

Where a test compares keys, sorting does not fail: it puts the elements of the list in the order of
their keys. The runs that are pending stay sorted, and with what is not cut into runs yet they hold
the elements of the list.
-/

namespace VersionConstraints

namespace Sorting

variable {ε α β : Type} [LinearOrder β] {before : α → α → Except ε Bool} {key : α → β} {s : Set α}

/-- Runs that are sorted and have elements of a set. -/
def Runs (key : α → β) (s : Set α) (runs : List (List α)) : Prop :=
  ∀ run ∈ runs, SortedBy key run ∧ ∀ x ∈ run, x ∈ s

lemma runs_cons {run : List α} {runs : List (List α)} :
    Runs key s (run :: runs) ↔ (SortedBy key run ∧ ∀ x ∈ run, x ∈ s) ∧ Runs key s runs :=
  List.forall_mem_cons

/-- The last two runs can be replaced by their merge. -/
lemma merge_spec (hb : DecidedBy before key s) (threshold : Nat) {x y : List α}
    {rest : List (List α)} (h : Runs key s (y :: x :: rest)) :
    Yields (Run.merge before threshold x y) fun r =>
      Runs key s (r.1 :: rest) ∧ (r.1 :: rest).flatten.Perm (y :: x :: rest).flatten := by
  obtain ⟨⟨hsy, hy⟩, h⟩ := runs_cons.mp h
  obtain ⟨⟨hsx, hx⟩, h⟩ := runs_cons.mp h
  obtain ⟨r, heq, hperm, hsorted⟩ := Run.merge_spec hb threshold hx hy hsx hsy
  refine ⟨r, heq, runs_cons.mpr ⟨⟨hsorted, fun a ha => ?_⟩, h⟩, ?_⟩
  · exact (List.mem_append.mp (hperm.mem_iff.mp ha)).elim (hx a) (hy a)
  · rw [List.flatten_cons, List.flatten_cons, List.flatten_cons, ← List.append_assoc]
    exact (hperm.trans List.perm_append_comm).append_right _

/-- To merge crowded runs keeps all runs sorted. -/
lemma mergeCrowded_spec (hb : DecidedBy before key s) (threshold : Nat) {runs : List (List α)}
    (h : Runs key s runs) :
    Yields (mergeCrowded before threshold runs) fun r =>
      Runs key s r.1 ∧ r.1.flatten.Perm runs.flatten := by
  fun_induction mergeCrowded before threshold runs with
  | case1 threshold z y x rest hshorter ih =>
    obtain ⟨hz, hrest⟩ := runs_cons.mp h
    apply (merge_spec hb threshold hrest).bind
    rintro r ⟨hr, hperm⟩
    obtain ⟨r', heq, hr', hperm'⟩ := ih r.1 r.2 (runs_cons.mpr ⟨hz, hr⟩)
    exact ⟨r', heq, hr', hperm'.trans (hperm.append_left z)⟩
  | case2 threshold z y x rest hshorter hcrowded ih =>
    apply (merge_spec hb threshold h).bind
    rintro r ⟨hr, hperm⟩
    obtain ⟨r', heq, hr', hperm'⟩ := ih r.1 r.2 hr
    exact ⟨r', heq, hr', hperm'.trans hperm⟩
  | case3 threshold z y x rest => exact .ok ⟨h, List.Perm.refl _⟩
  | case4 threshold z y hle =>
    exact (merge_spec hb threshold h).bind fun r ⟨hr, hperm⟩ => .ok ⟨hr, hperm⟩
  | case5 threshold z y => exact .ok ⟨h, List.Perm.refl _⟩
  | case6 threshold runs => exact .ok ⟨h, List.Perm.refl _⟩

/-- To merge all runs makes one sorted list of them. -/
lemma mergeAll_spec (hb : DecidedBy before key s) (threshold : Nat) {runs : List (List α)}
    (h : Runs key s runs) :
    Yields (mergeAll before threshold runs) fun ys => ys.Perm runs.flatten ∧ SortedBy key ys := by
  fun_induction mergeAll before threshold runs with
  | case1 threshold z y x rest hshorter ih =>
    obtain ⟨hz, hrest⟩ := runs_cons.mp h
    apply (merge_spec hb threshold hrest).bind
    rintro r ⟨hr, hperm⟩
    obtain ⟨ys, heq, hperm', hsorted⟩ := ih r.1 r.2 (runs_cons.mpr ⟨hz, hr⟩)
    exact ⟨ys, heq, hperm'.trans (hperm.append_left z), hsorted⟩
  | case2 threshold z y x rest hshorter ih =>
    apply (merge_spec hb threshold h).bind
    rintro r ⟨hr, hperm⟩
    obtain ⟨ys, heq, hperm', hsorted⟩ := ih r.1 r.2 hr
    exact ⟨ys, heq, hperm'.trans hperm, hsorted⟩
  | case3 threshold z y =>
    apply (merge_spec hb threshold h).bind
    rintro r ⟨hr, hperm⟩
    exact .ok ⟨by simpa using hperm, (runs_cons.mp hr).1.1⟩
  | case4 threshold z => exact .ok ⟨by simp, (runs_cons.mp h).1.1⟩
  | case5 threshold => exact .ok ⟨List.Perm.refl _, List.Pairwise.nil⟩

/-- Sorting behind pending runs makes one sorted list of the runs and the list. -/
lemma sortFrom_spec (hb : DecidedBy before key s) (least threshold : Nat) {runs : List (List α)}
    {xs : List α} (h : Runs key s runs) (hxs : ∀ x ∈ xs, x ∈ s) :
    Yields (sortFrom before least threshold runs xs) fun ys =>
      ys.Perm (runs.flatten ++ xs) ∧ SortedBy key ys := by
  fun_induction sortFrom before least threshold runs xs with
  | case1 threshold runs =>
    rw [List.append_nil]
    exact mergeAll_spec hb threshold h
  | case2 threshold runs x xs e heq =>
    exact absurd heq ((Run.next_spec hb least hxs).ne_error e)
  | case3 threshold runs x xs run rest heq ih =>
    obtain ⟨hperm, hsorted⟩ := (Run.next_spec hb least hxs).of_eq_ok heq
    have hmem : ∀ a ∈ run ++ rest, a ∈ s := fun a ha => hxs a (hperm.mem_iff.mp ha)
    have hrun : Runs key s (run :: runs) :=
      runs_cons.mpr ⟨⟨hsorted, fun a ha => hmem a (List.mem_append_left _ ha)⟩, h⟩
    apply (mergeCrowded_spec hb threshold hrun).bind
    rintro r ⟨hr, hperm'⟩
    obtain ⟨ys, heq', hys, hsorted'⟩ :=
      ih r.1 r.2 hr fun a ha => hmem a (List.mem_append_right _ ha)
    refine ⟨ys, heq', hys.trans ?_, hsorted'⟩
    calc (r.1.flatten ++ rest).Perm (run ++ runs.flatten ++ rest) := hperm'.append_right _
      _ |>.Perm (runs.flatten ++ run ++ rest) := List.perm_append_comm.append_right _
      _ |>.Perm (runs.flatten ++ (x :: xs)) := by
          rw [List.append_assoc]
          exact hperm.append_left _

lemma sort_singleton (before : α → α → Except ε Bool) (x : α) : sort before [x] = .ok [x] := by
  have hnext (least : Nat) : Run.next before least [x] = .ok ([x], []) := by
    simp [Run.next, Run.split, Run.insertAll]
  rw [sort, sortFrom]
  split
  · next h =>
    rw [hnext] at h
    cases h
  · next h =>
    rw [hnext] at h
    cases h
    simp [mergeCrowded, sortFrom, mergeAll]

/-- Sorting a list puts its elements in the order of their keys. -/
theorem sort_spec (hb : DecidedBy before key s) {xs : List α} (hxs : ∀ x ∈ xs, x ∈ s) :
    Yields (sort before xs) fun ys => ys.Perm xs ∧ SortedBy key ys :=
  sortFrom_spec hb (leastRun xs.length) longStretch (fun _ h => nomatch h) hxs

end Sorting

end VersionConstraints
