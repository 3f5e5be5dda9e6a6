import Mathlib.Order.OrderDual
import Mathlib.Tactic.Set
import VersionConstraints.Order.Merge
import VersionConstraints.Proofs.Sorting.Run

/-!
# Merges are sorted

A merge keeps an invariant: what is merged already, followed by either list that is left, is sorted,
and no element of the second list goes behind the last of the first. Each step takes elements off
one list that go before all of the other, so it keeps the invariant, whether it takes one element or
a stretch. A settled merge is then sorted.

Both directions are the same merge, the backward one of the reversed runs under the opposite order.
-/

namespace VersionConstraints

variable {ε α β : Type} [LinearOrder β] {before : α → α → Except ε Bool} {key : α → β} {s : Set α}

/-! ### The invariant -/

structure Merge.Sound (key : α → β) (all : List α) (m : Merge α) : Prop where
  perm : (m.merged ++ m.first ++ m.second).Perm all
  sorted_first : SortedBy key (m.merged ++ m.first)
  sorted_second : SortedBy key (m.merged ++ m.second)
  le_last : ∀ x ∈ m.first.getLast?, ∀ y ∈ m.second, key y ≤ key x

namespace Merge.Sound

variable {all merged xs ys : List α} {m : Merge α}

lemma mem_of_first (h : m.Sound key all) (hs : ∀ x ∈ all, x ∈ s) : ∀ x ∈ m.first, x ∈ s :=
  fun x hx => hs x (h.perm.mem_iff.mp (by simp [hx]))

lemma mem_of_second (h : m.Sound key all) (hs : ∀ x ∈ all, x ∈ s) : ∀ x ∈ m.second, x ∈ s :=
  fun x hx => hs x (h.perm.mem_iff.mp (by simp [hx]))

/-- Elements of the first list that go before all of the second can be taken. -/
lemma takeFirst {zs : List α} (h : Merge.Sound key all ⟨merged, zs ++ xs, ys⟩)
    (hle : ∀ z ∈ zs, ∀ y ∈ ys, key z ≤ key y) : Merge.Sound key all ⟨merged ++ zs, xs, ys⟩ := by
  have hsorted : SortedBy key (merged ++ zs ++ xs) := by
    rw [List.append_assoc]
    exact h.sorted_first
  refine ⟨by simpa using h.perm, hsorted, ?_, ?_⟩
  · refine hsorted.left.append h.sorted_second.right fun x hx y hy => ?_
    rcases List.mem_append.mp hx with hx | hx
    · exact h.sorted_second.le hx hy
    · exact hle x hx y hy
  · intro x hx
    refine h.le_last x ?_
    rw [Option.mem_def] at hx ⊢
    simp only [List.getLast?_append, hx, Option.some_or]

/-- Elements of the second list that go before all of the first can be taken. -/
lemma takeSecond {zs : List α} (h : Merge.Sound key all ⟨merged, xs, zs ++ ys⟩)
    (hle : ∀ z ∈ zs, ∀ x ∈ xs, key z ≤ key x) : Merge.Sound key all ⟨merged ++ zs, xs, ys⟩ := by
  have hsorted : SortedBy key (merged ++ zs ++ ys) := by
    rw [List.append_assoc]
    exact h.sorted_second
  refine ⟨?_, ?_, hsorted, ?_⟩
  · refine List.Perm.trans ?_ h.perm
    simp only [List.append_assoc]
    refine List.Perm.append_left _ ?_
    rw [← List.append_assoc, ← List.append_assoc]
    exact List.perm_append_comm.append_right ys
  · refine hsorted.left.append h.sorted_first.right fun z hz x hx => ?_
    rcases List.mem_append.mp hz with hz | hz
    · exact h.sorted_first.le hz hx
    · exact hle z hz x hx
  · exact fun x hx y hy => h.le_last x hx y (List.mem_append_right _ hy)

/-- A merge stays sound when the first list gives its head, if that goes before all of the second
one. -/
lemma takeFirst_head {x : α} (h : Merge.Sound key all ⟨merged, x :: xs, ys⟩)
    (hle : ∀ y ∈ ys, key x ≤ key y) : Merge.Sound key all ⟨merged ++ [x], xs, ys⟩ := by
  apply takeFirst h
  intro z hz
  obtain rfl := List.mem_singleton.mp hz
  exact hle

/-- A merge stays sound when the second list gives its head, if that goes before all of the first
one. -/
lemma takeSecond_head {y : α} (h : Merge.Sound key all ⟨merged, xs, y :: ys⟩)
    (hle : ∀ x ∈ xs, key y ≤ key x) : Merge.Sound key all ⟨merged ++ [y], xs, ys⟩ := by
  apply takeSecond h
  intro z hz
  obtain rfl := List.mem_singleton.mp hz
  exact hle

/-- In a settled merge, what is left of the second list goes before the first one. -/
lemma second_le_first (h : m.Sound key all) (hm : m.isSettled = true) :
    ∀ y ∈ m.second, ∀ x ∈ m.first, key y ≤ key x := by
  intro y hy x hx
  obtain ⟨merged, first, second⟩ := m
  match first, second with
  | [], _ => simp at hx
  | _, [] => simp at hy
  | [z], _ :: _ =>
    obtain rfl : x = z := by simpa using hx
    exact h.le_last x rfl y hy
  | _ :: _ :: _, _ :: _ => simp [Merge.isSettled] at hm

lemma result_perm (h : m.Sound key all) : m.result.Perm all := by
  refine List.Perm.trans ?_ h.perm
  simp only [Merge.result]
  rw [List.append_assoc, List.append_assoc]
  exact List.perm_append_comm.append_left _

/-- The result of a settled merge is sorted. -/
lemma result_sorted (h : m.Sound key all) (hm : m.isSettled = true) : SortedBy key m.result := by
  refine h.sorted_second.append h.sorted_first.right fun y hy x hx => ?_
  rcases List.mem_append.mp hy with hy | hy
  · exact h.sorted_first.le hy hx
  · exact h.second_le_first hm y hy x hx

end Merge.Sound

/-! ### Directions -/

/-- A direction goes by the order of a key on a set of elements. -/
structure Direction.Follows (d : Direction ε α) (key : α → β) (s : Set α) : Prop where
  secondGoesFirst_eq : ∀ {x y}, x ∈ s → y ∈ s →
    d.secondGoesFirst x y = .ok (decide (key y < key x))
  firstStretch_eq : ∀ {xs y}, (∀ x ∈ xs, x ∈ s) → y ∈ s → SortedBy key xs →
    d.firstStretch xs y = .ok (xs.countP fun x => key x ≤ key y)
  secondStretch_eq : ∀ {ys x}, (∀ y ∈ ys, y ∈ s) → x ∈ s → SortedBy key ys →
    d.secondStretch ys x = .ok (ys.countP fun y => key y < key x)

namespace Direction

/-- Merging from the front follows the order of the key. -/
lemma forward_follows (hb : DecidedBy before key s) : (forward before).Follows key s where
  secondGoesFirst_eq hx hy := hb _ hy _ hx
  firstStretch_eq hxs hy h :=
    Search.galloping_eq (isBehindAt_eq hb hy hxs h) List.countP_le_length _
  secondStretch_eq hys hx h :=
    Search.galloping_eq (isBeforeAt_eq hb hx hys h) List.countP_le_length _


lemma sortedBy_reverse {xs : List α} (h : SortedBy (fun x => OrderDual.toDual (key x)) xs) :
    SortedBy key xs.reverse := by
  rw [SortedBy, List.pairwise_reverse]
  exact h

/-- The elements that fail a test are the others that pass it. -/
lemma length_sub_countP (p q : α → Bool) (hpq : ∀ x, q x = !p x) (xs : List α) :
    xs.length - xs.countP p = xs.countP q := by
  have hq : xs.countP q = xs.countP fun x => ¬ p x := List.countP_congr (by simp [hpq])
  have := List.length_eq_countP_add_countP p (l := xs)
  omega

/-- Merging from the back follows the reverse of the order. -/
lemma backward_follows (hb : DecidedBy before key s) :
    (backward before).Follows (fun x => OrderDual.toDual (key x)) s where
  secondGoesFirst_eq hx hy := hb _ hx _ hy
  firstStretch_eq {xs y} hxs hy h := by
    have hsearch := Search.galloping_eq
      (isBeforeAt_eq hb hy (by simpa using hxs) (sortedBy_reverse h))
      (List.countP_le_length.trans_eq List.length_reverse) (xs.length - 1)
    simp only [backward, hsearch, ok_bind, pure_eq_ok, List.countP_reverse]
    rw [length_sub_countP _ _ (fun x => ?_)]
    simp [← decide_not]
  secondStretch_eq {ys x} hys hx h := by
    have hsearch := Search.galloping_eq
      (isBehindAt_eq hb hx (by simpa using hys) (sortedBy_reverse h))
      (List.countP_le_length.trans_eq List.length_reverse) (ys.length - 1)
    simp only [backward, hsearch, ok_bind, pure_eq_ok, List.countP_reverse]
    rw [length_sub_countP _ _ (fun y => ?_)]
    simp [← decide_not]

/-! ### Steps -/

section Steps

variable {d : Direction ε α} {all : List α} {m : Merge α}

/-- To take single elements keeps a merge sound. -/
lemma takeSingles_spec (hd : d.Follows key s) (hs : ∀ x ∈ all, x ∈ s) (h : m.Sound key all)
    (threshold i j : Nat) :
    Yields (d.takeSingles threshold i j m) (Merge.Sound key all) := by
  fun_induction takeSingles d threshold i j m with
  | case1 i j merged x x' xs y ys ih₁ ih₂ =>
    have hx : x ∈ s := h.mem_of_first hs x (by simp)
    have hy : y ∈ s := h.mem_of_second hs y (by simp)
    rw [hd.secondGoesFirst_eq hx hy, ok_bind]
    split
    · next hlt =>
      have hle : key y ≤ key x := le_of_lt (of_decide_eq_true hlt)
      have hstep := h.takeSecond_head (h.sorted_first.right.le_of_le_head hle)
      split
      · exact .ok hstep
      · exact ih₁ hstep
    · next hlt =>
      have hle : key x ≤ key y := by simpa using hlt
      have hstep := h.takeFirst_head (h.sorted_second.right.le_of_le_head hle)
      split
      · exact .ok hstep
      · exact ih₂ hstep
  | case2 i j m hm => exact .ok h

/-- To take a stretch of the first list keeps a merge sound. -/
lemma takeFirstStretch_spec (hd : d.Follows key s) (hs : ∀ x ∈ all, x ∈ s)
    (h : m.Sound key all) :
    Yields (d.takeFirstStretch m) fun r => r.1.Sound key all := by
  unfold takeFirstStretch
  split
  · next merged x x' xs y ys =>
    have hsorted : SortedBy key (x :: x' :: xs) := h.sorted_first.right
    have hy : y ∈ s := h.mem_of_second hs y (by simp)
    rw [hd.firstStretch_eq (h.mem_of_first hs) hy hsorted, ok_bind]
    set n := (x :: x' :: xs).countP fun x => key x ≤ key y
    have htaken : Merge.Sound key all
        ⟨merged ++ (x :: x' :: xs).take n, (x :: x' :: xs).drop n, y :: ys⟩ := by
      apply Merge.Sound.takeFirst (by rwa [List.take_append_drop])
      intro z hz
      exact h.sorted_second.right.le_of_le_head (hsorted.le_of_mem_take hz)
    dsimp only
    split
    · exact .ok htaken
    · exact .ok (htaken.takeSecond_head fun z hz => (hsorted.lt_of_mem_drop hz).le)
  · exact .ok h

/-- To take a stretch of the second list keeps a merge sound. -/
lemma takeSecondStretch_spec (hd : d.Follows key s) (hs : ∀ x ∈ all, x ∈ s)
    (h : m.Sound key all) :
    Yields (d.takeSecondStretch m) fun r => r.1.Sound key all := by
  unfold takeSecondStretch
  split
  · next merged x x' xs y ys =>
    have hsorted : SortedBy key (y :: ys) := h.sorted_second.right
    have hx : x ∈ s := h.mem_of_first hs x (by simp)
    rw [hd.secondStretch_eq (h.mem_of_second hs) hx hsorted, ok_bind]
    set n := (y :: ys).countP fun y => key y < key x
    have htaken : Merge.Sound key all
        ⟨merged ++ (y :: ys).take n, x :: x' :: xs, (y :: ys).drop n⟩ := by
      apply Merge.Sound.takeSecond (by rwa [List.take_append_drop])
      intro z hz
      exact h.sorted_first.right.le_of_le_head (hsorted.lt_of_mem_take hz).le
    dsimp only
    split
    · exact .ok htaken
    · exact .ok (htaken.takeFirst_head fun z hz => hsorted.le_of_mem_drop hz)
  · exact .ok h

lemma takeStretches_spec (hd : d.Follows key s) (hs : ∀ x ∈ all, x ∈ s) (h : m.Sound key all) :
    Yields (d.takeStretches m) fun r => r.1.Sound key all := by
  simp only [takeStretches]
  split
  · apply (takeFirstStretch_spec hd hs h).bind
    intro r₁ h₁
    exact (takeSecondStretch_spec hd hs h₁).bind fun r₂ h₂ => .ok h₂
  · apply (takeSecondStretch_spec hd hs h).bind
    intro r₁ h₁
    exact (takeFirstStretch_spec hd hs h₁).bind fun r₂ h₂ => .ok h₂

/-- Galloping keeps a merge sound. -/
lemma gallop_spec (hd : d.Follows key s) (hs : ∀ x ∈ all, x ∈ s) (h : m.Sound key all)
    (threshold : Nat) :
    Yields (d.gallop threshold m) fun r => r.1.Sound key all := by
  fun_induction gallop d threshold m with
  | case1 threshold m hm => exact .ok h
  | case2 threshold m hm e heq => exact absurd heq ((takeStretches_spec hd hs h).ne_error e)
  | case3 threshold m hm m' long heq hlong ih =>
    exact ih ((takeStretches_spec hd hs h).of_eq_ok heq)
  | case4 threshold m hm m' long heq hlong =>
    exact .ok ((takeStretches_spec hd hs h).of_eq_ok heq)

/-- A merge ends with its elements in order. -/
lemma finish_spec (hd : d.Follows key s) (hs : ∀ x ∈ all, x ∈ s) (h : m.Sound key all)
    (threshold : Nat) :
    Yields (d.finish threshold m) fun r => r.1.Perm all ∧ SortedBy key r.1 := by
  have hsingles {m : Merge α} (h : m.Sound key all) (t : Nat) := takeSingles_spec hd hs h t 0 0
  fun_induction finish d threshold m with
  | case1 threshold m hm => exact .ok ⟨h.result_perm, h.result_sorted hm⟩
  | case2 threshold m hm e heq => exact absurd heq ((hsingles h threshold).ne_error e)
  | case3 threshold m hm m₁ heq hm₁ =>
    have h₁ := (hsingles h threshold).of_eq_ok heq
    exact .ok ⟨h₁.result_perm, h₁.result_sorted hm₁⟩
  | case4 threshold m hm m₁ heq hm₁ e hgallop =>
    have h₁ := (hsingles h threshold).of_eq_ok heq
    exact absurd hgallop ((gallop_spec hd hs h₁ threshold).ne_error e)
  | case5 threshold m hm m₁ heq hm₁ m₂ threshold₂ hgallop hm₂ =>
    have h₁ := (hsingles h threshold).of_eq_ok heq
    have h₂ := (gallop_spec hd hs h₁ threshold).of_eq_ok hgallop
    exact .ok ⟨h₂.result_perm, h₂.result_sorted hm₂⟩
  | case6 threshold m hm m₁ heq hm₁ m₂ threshold₂ hgallop hm₂ ih =>
    have h₁ := (hsingles h threshold).of_eq_ok heq
    exact ih ((gallop_spec hd hs h₁ threshold).of_eq_ok hgallop)

end Steps

end Direction

/-! ### Neighbouring runs -/

namespace Run

/-- To merge overlapping runs makes one sorted run of their elements. -/
lemma mergeOverlapping_spec (hb : DecidedBy before key s) (threshold : Nat) {left right : List α}
    (hleft : ∀ x ∈ left, x ∈ s) (hright : ∀ y ∈ right, y ∈ s) (hsl : SortedBy key left)
    (hsr : SortedBy key right) (hfirst : ∀ y ∈ right.head?, ∀ x ∈ left, key y ≤ key x)
    (hlast : ∀ x ∈ left.getLast?, ∀ y ∈ right, key y ≤ key x) :
    Yields (mergeOverlapping before threshold left right) fun r =>
      r.1.Perm (left ++ right) ∧ SortedBy key r.1 := by
  have hmem : ∀ x ∈ left ++ right, x ∈ s := fun x hx =>
    (List.mem_append.mp hx).elim (hleft x) (hright x)
  simp only [mergeOverlapping]
  split
  · have hstart : Merge.Sound key (left ++ right) ⟨right.take 1, left, right.drop 1⟩ := by
      refine ⟨?_, ?_, ?_, ?_⟩
      · refine (List.perm_append_comm.append_right _).trans ?_
        rw [List.append_assoc, List.take_append_drop]
      · refine SortedBy.append (hsr.sublist (List.take_sublist _ _)) hsl ?_
        intro y hy
        rw [List.take_one] at hy
        exact hfirst y (by simpa using hy)
      · rwa [List.take_append_drop]
      · exact fun x hx y hy => hlast x hx y (List.mem_of_mem_drop hy)
    exact Direction.finish_spec (Direction.forward_follows hb) hmem hstart threshold
  · have hstart : Merge.Sound (fun x => OrderDual.toDual (key x)) (left ++ right)
        ⟨left.reverse.take 1, right.reverse, left.reverse.drop 1⟩ := by
      have hsl' : SortedBy (fun x => OrderDual.toDual (key x)) left.reverse :=
        List.pairwise_reverse.mpr hsl
      refine ⟨?_, ?_, ?_, ?_⟩
      · refine (List.perm_append_comm.append_right _).trans ?_
        rw [List.append_assoc, List.take_append_drop]
        exact List.perm_append_comm.trans ((List.reverse_perm _).append (List.reverse_perm _))
      · refine SortedBy.append (hsl'.sublist (List.take_sublist _ _))
          (List.pairwise_reverse.mpr hsr) ?_
        intro x hx y hy
        rw [List.take_one, List.head?_reverse] at hx
        exact hlast x (by simpa using hx) y (by simpa using hy)
      · rwa [List.take_append_drop]
      · intro y hy x hx
        rw [List.getLast?_reverse] at hy
        exact hfirst y hy x (by simpa using List.mem_of_mem_drop hx)
    have hmerge := Direction.finish_spec (Direction.backward_follows hb) hmem hstart threshold
    apply hmerge.bind
    rintro r ⟨hperm, hsorted⟩
    refine .ok ⟨?_, Direction.sortedBy_reverse hsorted⟩
    exact (List.reverse_perm _).trans hperm

/-- Where the front of the left run and the back of the right run are in place, the runs are merged
once what lies between is. -/
lemma between_spec {front xs ys back merged : List α} (hsl : SortedBy key (front ++ xs))
    (hsr : SortedBy key (ys ++ back)) (hfront : ∀ x ∈ front, ∀ y ∈ ys, key x ≤ key y)
    (hback : ∀ x ∈ front ++ xs, ∀ y ∈ back, key x ≤ key y) (hperm : merged.Perm (xs ++ ys))
    (hsorted : SortedBy key merged) :
    (front ++ merged ++ back).Perm (front ++ xs ++ (ys ++ back)) ∧
      SortedBy key (front ++ merged ++ back) := by
  have hmem {z : α} (hz : z ∈ merged) : z ∈ xs ∨ z ∈ ys :=
    List.mem_append.mp (hperm.mem_iff.mp hz)
  constructor
  · calc (front ++ merged ++ back).Perm (front ++ (xs ++ ys) ++ back) :=
          (hperm.append_left _).append_right _
      _ = front ++ xs ++ (ys ++ back) := by simp only [List.append_assoc]
  · refine (hsl.left.append hsorted ?_).append hsr.right ?_
    · intro x hx z hz
      exact (hmem hz).elim (hsl.le hx) (hfront x hx z)
    · intro x hx y hy
      rcases List.mem_append.mp hx with hx | hx
      · exact hback x (List.mem_append_left _ hx) y hy
      · rcases hmem hx with hx | hx
        · exact hback x (List.mem_append_right _ hx) y hy
        · exact hsr.le hx hy

/-- Merging two sorted runs sorts them. -/
lemma merge_spec (hb : DecidedBy before key s) (threshold : Nat) {left right : List α}
    (hleft : ∀ x ∈ left, x ∈ s) (hright : ∀ y ∈ right, y ∈ s) (hsl : SortedBy key left)
    (hsr : SortedBy key right) :
    Yields (merge before threshold left right) fun r =>
      r.1.Perm (left ++ right) ∧ SortedBy key r.1 := by
  simp only [merge]
  split
  · exact .ok ⟨by simp, hsl⟩
  · next y ys =>
    have hy : y ∈ s := hright y (by simp)
    rw [Search.galloping_eq (isBehindAt_eq hb hy hleft hsl) List.countP_le_length, ok_bind]
    set i := left.countP fun x => key x ≤ key y
    have hfront : ∀ x ∈ left.take i, ∀ z ∈ y :: ys, key x ≤ key z := fun x hx =>
      hsr.le_of_le_head (hsl.le_of_mem_take hx)
    have hparts : left.take i ++ left.drop i = left := List.take_append_drop i left
    split
    · next hdrop =>
      rw [List.getLast?_eq_none_iff] at hdrop
      rw [hdrop, List.append_nil] at hparts
      rw [hparts] at hfront
      exact .ok ⟨List.Perm.refl _, hsl.append hsr hfront⟩
    · next x hlast =>
      have hxleft : x ∈ left := List.mem_of_mem_drop (List.mem_of_getLast? hlast)
      have hupto : ∀ z ∈ left, key z ≤ key x := by
        refine hsl.le_getLast ?_
        rw [← hparts, List.getLast?_append, hlast, Option.some_or]
      rw [Search.galloping_eq (isBeforeAt_eq hb (hleft x hxleft) hright hsr)
        List.countP_le_length, ok_bind]
      set j := (y :: ys).countP fun z => key z < key x
      have hback : ∀ z ∈ left, ∀ w ∈ (y :: ys).drop j, key z ≤ key w := fun z hz w hw =>
        (hupto z hz).trans (hsr.le_of_mem_drop hw)
      have hparts' : (y :: ys).take j ++ (y :: ys).drop j = y :: ys := List.take_append_drop j _
      split
      · next hj =>
        rw [hj, List.drop_zero] at hback
        exact .ok ⟨List.Perm.refl _, hsl.append hsr hback⟩
      · next hj =>
        have hhead : ∀ w ∈ ((y :: ys).take j).head?, ∀ z ∈ left.drop i, key w ≤ key z := by
          intro w hw z hz
          rw [List.head?_take, if_neg hj] at hw
          obtain rfl : y = w := by simpa using hw
          exact (hsl.lt_of_mem_drop hz).le
        have hlast' : ∀ w ∈ (left.drop i).getLast?, ∀ z ∈ (y :: ys).take j, key z ≤ key w := by
          intro w hw z hz
          rw [hlast] at hw
          obtain rfl : x = w := by simpa using hw
          exact (hsr.lt_of_mem_take hz).le
        have hmerge := mergeOverlapping_spec hb threshold
          (fun z hz => hleft z (List.mem_of_mem_drop hz))
          (fun z hz => hright z (List.mem_of_mem_take hz))
          (hsl.sublist (List.drop_sublist i _)) (hsr.sublist (List.take_sublist j _)) hhead hlast'
        apply hmerge.bind
        rintro r ⟨hperm, hsorted⟩
        have hbetween := between_spec (hparts.symm ▸ hsl) (hparts'.symm ▸ hsr)
          (fun z hz w hw => hfront z hz w (List.mem_of_mem_take hw)) (hparts.symm ▸ hback) hperm
          hsorted
        rw [hparts, hparts'] at hbetween
        exact .ok hbetween

end Run

end VersionConstraints
