import Mathlib.Data.List.Sort
import VersionConstraints.Proofs.Interval.Meaning
import VersionConstraints.Proofs.Sorting.Sort
import VersionConstraints.Range.Basic

/-!
# Canonical ranges

A canonical range has the spans of the intervals it was made from, each of them once and in order.
So the set of the spans determines the list of the spans, and with it equality and text.
-/

namespace VersionConstraints

namespace Range

def Regular (is : Range) : Prop :=
  ∀ i ∈ is, i.Regular

def spans (is : Range) : Set Span :=
  { s | ∃ i ∈ is, i.span = s }

def Ascending (is : Range) : Prop :=
  is.Pairwise fun i j => i.span < j.span

variable {is js : Range} {i j : Interval} {v : Semver}

lemma spans_cons : spans (i :: is) = insert i.span (spans is) := by
  ext s
  simp [spans, eq_comm]

/-- The spans do not depend on the order of the intervals. -/
lemma spans_eq_of_perm (h : is.Perm js) : is.spans = js.spans := by
  ext s
  exact exists_congr fun i => and_congr_left fun _ => h.mem_iff

/-! ### Membership -/

/-- A range contains the versions that one of its spans holds. -/
theorem contains_spec (his : is.Regular) (hv : v.Comparable) :
    Yields (contains v is) fun ok => ok = true ↔ ∃ s ∈ is.spans, s.Holds v.precedence := by
  induction is with
  | nil => exact .ok (iff_of_false nofun fun ⟨_, ⟨_, hi, _⟩, _⟩ => nomatch hi)
  | cons i is ih =>
    obtain ⟨hi, his⟩ := List.forall_mem_cons.mp his
    apply (Interval.contains_spec hi hv).bind
    intro ok hok
    cases ok with
    | true =>
      exact .ok (iff_of_true rfl ⟨i.span, ⟨i, List.mem_cons_self, rfl⟩, hok.mp rfl⟩)
    | false =>
      refine (ih his).imp fun ok' hok' => hok'.trans ?_
      constructor
      · rintro ⟨s, ⟨j, hj, rfl⟩, hs⟩
        exact ⟨_, ⟨j, List.mem_cons_of_mem i hj, rfl⟩, hs⟩
      · rintro ⟨s, ⟨j, hj, rfl⟩, hs⟩
        rcases List.mem_cons.mp hj with rfl | hj
        · exact nomatch hok.mpr hs
        · exact ⟨_, ⟨j, hj, rfl⟩, hs⟩

/-- Ranges that hold a version alike decide its membership alike. -/
lemma contains_congr (his : is.Regular) (hjs : js.Regular) (hv : v.Comparable)
    (h : (∃ s ∈ is.spans, s.Holds v.precedence) ↔ ∃ s ∈ js.spans, s.Holds v.precedence) :
    contains v is = contains v js := by
  obtain ⟨p, hp, hpspec⟩ := contains_spec his hv
  obtain ⟨q, hq, hqspec⟩ := contains_spec hjs hv
  rw [hp, hq, Bool.eq_iff_iff.mpr (hpspec.trans (h.trans hqspec.symm))]

/-! ### Ascending ranges -/

/-- Sorted intervals compare as smaller pair by pair. -/
lemma Ascending.pairwise_compare (h : is.Ascending) (his : is.Regular) :
    is.Pairwise fun i j => i.compare j = .ok .lt := by
  refine List.Pairwise.imp_of_mem ?_ h
  intro i j hi hj hlt
  exact (Interval.compare_eq_ok_iff (his i hi) (his j hj)).mpr hlt

lemma Ascending.nodup_map_span (h : is.Ascending) : (is.map Interval.span).Nodup :=
  (List.pairwise_map.mpr h).imp ne_of_lt

/-- No two intervals of an ascending range compare as equal. -/
lemma Ascending.eq_of_compare_eq (h : is.Ascending) (his : is.Regular) (hi : i ∈ is) (hj : j ∈ is)
    (heq : i.compare j = .ok .eq) : i = j :=
  List.inj_on_of_nodup_map h.nodup_map_span hi hj
    ((Interval.compare_eq_ok_iff (his i hi) (his j hj)).mp heq)

/-! ### Dropping repetitions -/

/-- Of intervals in order, the first of each span is kept. -/
lemma dropRepeated_spec (his : Regular (i :: is)) (hsorted : SortedBy Interval.span (i :: is)) :
    Yields (dropRepeated i is) fun js =>
      js.Sublist is ∧ Ascending (i :: js) ∧ spans (i :: js) = spans (i :: is) := by
  induction is generalizing i with
  | nil => exact .ok ⟨List.Sublist.refl _, List.pairwise_singleton _ _, rfl⟩
  | cons j is ih =>
    obtain ⟨hi, hjs⟩ := List.forall_mem_cons.mp his
    obtain ⟨hj, his⟩ := List.forall_mem_cons.mp hjs
    obtain ⟨hle, hsorted'⟩ := List.pairwise_cons.mp hsorted
    obtain ⟨-, hsorted''⟩ := List.pairwise_cons.mp hsorted'
    have hij : i.span ≤ j.span := hle j List.mem_cons_self
    apply (Interval.compare_spec hi hj).bind
    intro o ho
    cases o with
    | gt => exact absurd hij (not_le.mpr ho)
    | eq =>
      have hsame : i.span = j.span := ho
      have hrest : SortedBy Interval.span (i :: is) :=
        List.pairwise_cons.mpr ⟨fun k hk => hle k (List.mem_cons_of_mem j hk), hsorted''⟩
      apply (ih (List.forall_mem_cons.mpr ⟨hi, his⟩) hrest).imp
      rintro ks ⟨hsub, hasc, hspans⟩
      refine ⟨hsub.cons j, hasc, hspans.trans ?_⟩
      rw [spans_cons, spans_cons, spans_cons, ← hsame, Set.insert_eq_of_mem (Set.mem_insert _ _)]
    | lt =>
      have hbelow : i.span < j.span := ho
      apply (ih hjs hsorted').bind
      rintro ks ⟨hsub, hasc, hspans⟩
      refine .ok ⟨hsub.cons_cons j, List.pairwise_cons.mpr ⟨?_, hasc⟩, ?_⟩
      · intro k hk
        rcases List.mem_cons.mp hk with rfl | hk
        · exact hbelow
        · exact hbelow.trans ((List.pairwise_cons.mp hasc).1 k hk)
      · rw [spans_cons, hspans, ← spans_cons]

/-- A canonical range has each span of its intervals once, in order. -/
theorem canonical_spec (his : is.Regular) :
    Yields (canonical is) fun js =>
      (∀ j ∈ js, j ∈ is) ∧ js.Ascending ∧ js.spans = is.spans := by
  apply (Sorting.sort_spec Interval.isBefore_decidedBy his).bind
  rintro ks ⟨hperm, hsorted⟩
  have hks : Regular ks := fun k hk => his k (hperm.mem_iff.mp hk)
  cases ks with
  | nil => exact .ok ⟨nofun, List.Pairwise.nil, spans_eq_of_perm hperm⟩
  | cons k ks =>
    apply (dropRepeated_spec hks hsorted).bind
    rintro js ⟨hsub, hasc, hspans⟩
    refine .ok ⟨fun j hj => hperm.mem_iff.mp ?_, hasc, hspans.trans (spans_eq_of_perm hperm)⟩
    exact (hsub.cons_cons k).subset hj

/-- Nothing is to be done where there is at most one interval. -/
lemma canonical_toList (o : Option Interval) : canonical o.toList = .ok o.toList := by
  cases o with
  | none =>
    rw [Option.toList_none, canonical, Sorting.sort, Sorting.sortFrom, Sorting.mergeAll]
    rfl
  | some i =>
    rw [Option.toList_some, canonical, Sorting.sort_singleton]
    rfl

/-! ### Equality and text -/

/-- Sorted ranges of the same spans list them in the same order. -/
lemma map_span_eq (his : is.Ascending) (hjs : js.Ascending) (h : is.spans = js.spans) :
    is.map Interval.span = js.map Interval.span := by
  refine (List.pairwise_map.mpr his).eq_of_mem_iff (List.pairwise_map.mpr hjs) fun s => ?_
  rw [List.mem_map, List.mem_map]
  exact Set.ext_iff.mp h s

/-- The comparison interval by interval tells whether the spans are the same. -/
lemma pairwise_spec (his : is.Regular) (hjs : js.Regular) (hlen : is.length = js.length) :
    Yields (equal.pairwise is js) fun ok =>
      ok = true ↔ is.map Interval.span = js.map Interval.span := by
  induction is generalizing js with
  | nil =>
    obtain rfl := List.length_eq_zero_iff.mp hlen.symm
    exact .ok (iff_of_true rfl rfl)
  | cons i is ih =>
    cases js with
    | nil => cases hlen
    | cons j js =>
      obtain ⟨hi, his⟩ := List.forall_mem_cons.mp his
      obtain ⟨hj, hjs⟩ := List.forall_mem_cons.mp hjs
      rw [equal.pairwise, List.map_cons, List.map_cons, List.cons_eq_cons]
      apply (Interval.compare_spec hi hj).bind
      intro o ho
      rw [← ho.eq_eq]
      by_cases heq : o = .eq
      · rw [if_pos heq]
        exact (ih his hjs (Nat.succ.inj hlen)).imp fun ok hok => hok.trans (and_iff_right heq).symm
      · rw [if_neg heq]
        exact .ok (iff_of_false Bool.false_ne_true fun h => heq h.1)

/-- Ranges are equal if and only if they have the same spans in the same order. -/
theorem equal_spec (his : is.Regular) (hjs : js.Regular) :
    Yields (equal is js) fun ok => ok = true ↔ is.map Interval.span = js.map Interval.span := by
  rw [equal]
  split
  · next hlen => exact pairwise_spec his hjs hlen
  · next hlen =>
    refine .ok (iff_of_false Bool.false_ne_true fun h => hlen ?_)
    simpa using congrArg List.length h

lemma spans_eq_of_map_span_eq (h : is.map Interval.span = js.map Interval.span) :
    is.spans = js.spans := by
  ext s
  have hmem : s ∈ is.map Interval.span ↔ s ∈ js.map Interval.span := by rw [h]
  rwa [List.mem_map, List.mem_map] at hmem

/-- Ascending ranges are equal if and only if they have the same spans. -/
theorem equal_spec_of_ascending (his : is.Regular) (hjs : js.Regular) (hasc : is.Ascending)
    (hasc' : js.Ascending) : Yields (equal is js) fun ok => ok = true ↔ is.spans = js.spans :=
  (equal_spec his hjs).imp fun _ hok =>
    hok.trans ⟨spans_eq_of_map_span_eq, map_span_eq hasc hasc'⟩

/-- Sorted ranges of the same spans are equal. -/
lemma equal_eq_true (his : is.Regular) (hjs : js.Regular) (hasc : is.Ascending)
    (hasc' : js.Ascending) (h : is.spans = js.spans) : equal is js = .ok true := by
  obtain ⟨ok, hok, hspec⟩ := equal_spec_of_ascending his hjs hasc hasc'
  rw [hok, hspec.mpr h]

/-- Intervals of the same spans have the same texts. -/
lemma mapM_text_eq (his : is.Regular) (hjs : js.Regular)
    (h : is.map Interval.span = js.map Interval.span) :
    is.mapM Interval.text = js.mapM Interval.text := by
  induction is generalizing js with
  | nil =>
    rw [List.map_eq_nil_iff.mp h.symm]
  | cons i is ih =>
    cases js with
    | nil => cases h
    | cons j js =>
      obtain ⟨hi, his⟩ := List.forall_mem_cons.mp his
      obtain ⟨hj, hjs⟩ := List.forall_mem_cons.mp hjs
      obtain ⟨hspan, hspans⟩ := List.cons.inj h
      rw [List.mapM_cons, List.mapM_cons, Interval.text_eq_of_span_eq hi hj hspan,
        ih his hjs hspans]

/-- Ascending ranges with the same spans have the same text. -/
theorem text_eq_of_spans_eq (his : is.Regular) (hjs : js.Regular) (hasc : is.Ascending)
    (hasc' : js.Ascending) (h : is.spans = js.spans) : text is = text js := by
  rw [text, text, mapM_text_eq his hjs (map_span_eq hasc hasc' h)]

/-! ### A range -/

/-- The range `>=1.2.0-beta.3 <2.0.0`. -/
def sample : Range :=
  [⟨some ⟨.sample, true⟩, some ⟨.ofRelease ⟨2, 0, 0⟩, false⟩⟩]

lemma regular_sample : sample.Regular := by
  have hrelease : (Semver.ofRelease ⟨2, 0, 0⟩).Ordinary := Semver.ordinary_ofRelease (by decide)
  exact List.forall_mem_singleton.mpr ⟨Bound.regular_some.mpr Semver.ordinary_sample.regular,
    Bound.regular_some.mpr hrelease.regular⟩

end Range

end VersionConstraints
